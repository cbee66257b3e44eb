import Mechanism.Expr.Text
import Mechanism.Proofs.Expr.Calls
import Mechanism.Proofs.Simplifier

/-!
Tidy sums and products: several operands in order, and in a product at most one number, in front of
factors that are no products. The constructors keep nodes tidy whatever they are called on, unlike the
canonical form of a node, which a call may lose. So no operation is lost when operations are counted,
a coefficient is taken out whole, and every factor is written.
-/

namespace Mechanism

namespace Expr

variable {κ : Type} [Scalar κ]

/-! ### Tidy nodes -/

structure TidyProduct (operands : List (Expr κ)) : Prop where
  several : 2 ≤ operands.length
  ordered : Sorted operands
  flat : ∀ operand ∈ operands, operand.label ≠ .mul
  number : ∀ (place : Nat) (value : κ), operands[place]? = some (num value) →
    place = 0 ∧ Scalar.isZero value = false ∧ Scalar.isOne value = false

def Tidy : Expr κ → Prop
  | add terms => 2 ≤ terms.length ∧ Sorted terms
  | mul operands => TidyProduct operands
  | _ => True

def Neat (expr : Expr κ) : Prop := ∀ node ∈ expr.parts, node.Tidy

theorem neat_iff {expr : Expr κ} :
    expr.Neat ↔ expr.Tidy ∧ ∀ child ∈ expr.children, child.Neat := by
  rw [Neat, parts_eq, List.forall_mem_cons]
  simp only [List.mem_flatMap, Neat]
  exact and_congr_right fun _ => ⟨fun all child member node inside => all node ⟨child, member, inside⟩,
    fun each node ⟨child, member, inside⟩ => each child member node inside⟩

namespace Neat

variable {expr : Expr κ}

theorem tidy (neat : expr.Neat) : expr.Tidy := (neat_iff.mp neat).1

theorem child {operand : Expr κ} (neat : expr.Neat) (member : operand ∈ expr.children) :
    operand.Neat := (neat_iff.mp neat).2 operand member

theorem leaf (leaf : expr.isLeaf = true) : expr.Neat := by
  cases expr with
  | num | atom => exact neat_iff.mpr ⟨trivial, List.forall_mem_nil _⟩
  | _ => cases leaf

theorem number (value : κ) : (Expr.number value).Neat := leaf rfl

theorem addends (neat : expr.Neat) : ∀ term ∈ expr.addends, term.Neat := by
  induction expr using induct with
  | step expr ih =>
      cases expr with
      | add terms =>
          rw [Expr.addends, addendsOf_eq]
          intro leaf member
          obtain ⟨term, among, inside⟩ := List.mem_flatMap.mp member
          exact ih term among (neat.child among) leaf inside
      | _ => exact List.forall_mem_singleton.mpr neat

theorem factors (neat : expr.Neat) : ∀ factor ∈ expr.factors, factor.Neat := by
  induction expr using induct with
  | step expr ih =>
      cases expr with
      | mul operands =>
          rw [Expr.factors, factorsOf_eq]
          intro leaf member
          obtain ⟨operand, among, inside⟩ := List.mem_flatMap.mp member
          exact ih operand among (neat.child among) leaf inside
      | _ => exact List.forall_mem_singleton.mpr neat

theorem baseAndExponent (neat : expr.Neat) :
    expr.baseAndExponent.1.Neat ∧ expr.baseAndExponent.2.Neat := by
  cases expr with
  | pow base exponent =>
      exact ⟨neat.child List.mem_cons_self, neat.child (List.mem_cons_of_mem _ List.mem_cons_self)⟩
  | _ => exact ⟨neat, leaf rfl⟩

end Neat

theorem TidyProduct.tail {value : κ} {rest : List (Expr κ)} (tidy : TidyProduct (num value :: rest)) :
    ∀ factor ∈ rest, factor.asNumber? = none := by
  intro factor member
  obtain ⟨place, found⟩ := List.mem_iff_getElem?.mp member
  cases numeric : factor.asNumber? with
  | none => rfl
  | some other =>
      obtain rfl := asNumber?_eq_some.mp numeric
      exact absurd (tidy.number (place + 1) other found).1 (Nat.succ_ne_zero place)

theorem TidyProduct.of_symbolic {operands : List (Expr κ)} (several : 2 ≤ operands.length)
    (ordered : Sorted operands) (flat : ∀ operand ∈ operands, operand.label ≠ .mul)
    (symbolic : ∀ operand ∈ operands, operand.asNumber? = none) : TidyProduct operands := by
  refine ⟨several, ordered, flat, fun place value found => ?_⟩
  cases symbolic _ (List.mem_of_getElem? found)

theorem TidyProduct.cons_number {value : κ} {operands : List (Expr κ)} (several : operands ≠ [])
    (ordered : Sorted operands) (flat : ∀ operand ∈ operands, operand.label ≠ .mul)
    (symbolic : ∀ operand ∈ operands, operand.asNumber? = none)
    (nonzero : Scalar.isZero value = false) (notOne : Scalar.isOne value = false) :
    TidyProduct (num value :: operands) := by
  refine ⟨Nat.succ_le_succ (List.length_pos_iff.mpr several), ?_,
    List.forall_mem_cons.mpr ⟨nofun, flat⟩, fun place other found => ?_⟩
  · exact List.pairwise_cons.mpr ⟨fun operand member =>
      precedes_weak.asymm (precedes_symbolic value (symbolic operand member)), ordered⟩
  · cases place with
    | zero =>
        obtain rfl := num.inj (Option.some.inj found)
        exact ⟨rfl, nonzero, notOne⟩
    | succ place => cases symbolic _ (List.mem_of_getElem? found)

/-! ### What the constructors make -/

theorem two_le_length {α : Type} {items : List α} (notEmpty : items = [] → False)
    (notSingle : ∀ item, items = [item] → False) : 2 ≤ items.length := by
  rcases items with _ | ⟨first, _ | ⟨second, others⟩⟩
  · exact (notEmpty rfl).elim
  · exact (notSingle first rfl).elim
  · simp

theorem neat_splitCoefficient {term : Expr κ} (neat : term.Neat) : term.splitCoefficient.2.Neat := by
  unfold splitCoefficient
  split
  · exact .leaf rfl
  · exact neat.child (List.mem_cons_of_mem _ List.mem_cons_self)
  · rename_i value rest single
    have tidy : TidyProduct (num value :: rest) := neat.tidy
    refine neat_iff.mpr ⟨?_, fun factor member => neat.child (List.mem_cons_of_mem _ member)⟩
    refine .of_symbolic ?_ (List.pairwise_cons.mp tidy.ordered).2
      (List.forall_mem_cons.mp tidy.flat).2 tidy.tail
    rcases rest with _ | ⟨first, _ | ⟨second, others⟩⟩
    · exact absurd tidy.several (by simp)
    · exact absurd rfl (single first)
    · simp
  · exact neat

theorem neat_ofTerms {terms : List (Expr κ)} (neat : ∀ term ∈ terms, term.Neat) :
    (ofTerms terms).Neat := by
  unfold ofTerms
  split
  · exact .leaf rfl
  · exact neat _ List.mem_cons_self
  · rename_i notEmpty notSingle
    refine neat_iff.mpr ⟨⟨?_, sorted_arrange _⟩, fun term member =>
      neat term ((arrange_perm _).mem_iff.mp member)⟩
    rw [(arrange_perm _).length_eq]
    exact two_le_length notEmpty notSingle

theorem neat_ofFactors (coefficient : κ) {operands : List (Expr κ)}
    (neat : ∀ operand ∈ operands, operand.Neat)
    (flat : ∀ operand ∈ operands, operand.label ≠ .mul)
    (symbolic : ∀ operand ∈ operands, operand.asNumber? = none) :
    (ofFactors coefficient operands).Neat := by
  have same {operand : Expr κ} := (arrange_perm operands).mem_iff (a := operand)
  replace neat : ∀ operand ∈ arrange operands, operand.Neat :=
    fun operand member => neat operand (same.mp member)
  replace flat : ∀ operand ∈ arrange operands, operand.label ≠ .mul :=
    fun operand member => flat operand (same.mp member)
  replace symbolic : ∀ operand ∈ arrange operands, operand.asNumber? = none :=
    fun operand member => symbolic operand (same.mp member)
  have ordered := sorted_arrange operands
  unfold ofFactors
  generalize arrange operands = leaves at neat flat symbolic ordered
  split
  · exact .leaf rfl
  rename_i nonzero
  rw [Bool.not_eq_true] at nonzero
  split
  · exact .number coefficient
  · exact neat _ List.mem_cons_self
  · rename_i notEmpty notSingle _
    refine neat_iff.mpr ⟨.of_symbolic ?_ ordered flat symbolic, neat⟩
    exact two_le_length notEmpty notSingle
  · rename_i notEmpty notOne
    rw [number_of_nonzero nonzero]
    refine neat_iff.mpr ⟨.cons_number notEmpty ordered flat symbolic nonzero notOne, ?_⟩
    exact List.forall_mem_cons.mpr ⟨.leaf rfl, neat⟩

theorem neat_pieces {power : Expr κ} (neat : power.Neat) :
    ∀ part ∈ pieces power, part.Neat ∧ part.label ≠ .mul := by
  cases power with
  | mul operands =>
      have tidy : TidyProduct operands := neat.tidy
      exact fun part member => ⟨neat.child member, tidy.flat part member⟩
  | _ => exact List.forall_mem_singleton.mpr ⟨neat, nofun⟩

namespace Call

def StaysNeat (call : Call κ) (result : Expr κ) : Prop :=
  (∀ operand ∈ call.operands, operand.Neat) → result.Neat

section

variable {answer : Call κ → Expr κ}

theorem sum_neat (terms : List (Expr κ))
    (answers : ∀ asked ∈ (sum terms).asks answer, asked.StaysNeat (answer asked)) :
    (sum terms).StaysNeat ((sum terms).step answer) := by
  intro neat
  have leaves : ∀ leaf ∈ addendsOf terms, leaf.Neat := by
    rw [addendsOf_eq]
    intro leaf member
    obtain ⟨term, among, inside⟩ := List.mem_flatMap.mp member
    exact (neat term among).addends leaf inside
  refine neat_ofTerms (List.forall_mem_append.mpr ⟨fun term member => ?_, ?_⟩)
  · obtain ⟨group, among, scaled⟩ := List.mem_filterMap.mp member
    have whole : group.1.Neat := by
      obtain ⟨leaf, inside, same⟩ := mem_likeTerms among
      exact same ▸ neat_splitCoefficient (leaves leaf (List.mem_of_mem_filter inside))
    unfold scaledTerm? at scaled
    split at scaled
    · cases scaled
    rename_i nonzero
    split at scaled
    · cases scaled
      exact whole
    · rename_i notOne
      cases scaled
      refine answers (product [number group.2, group.1])
        (List.mem_filterMap.mpr ⟨group, among, if_neg ?_⟩) ?_
      · simp [nonzero, notOne]
      · exact List.forall_mem_cons.mpr ⟨.number _, List.forall_mem_singleton.mpr whole⟩
  · split
    · exact List.forall_mem_nil _
    · exact List.forall_mem_singleton.mpr (.number _)

theorem product_neat (operands : List (Expr κ))
    (answers : ∀ asked ∈ (product operands).asks answer, asked.StaysNeat (answer asked)) :
    (product operands).StaysNeat ((product operands).step answer) := by
  intro neat
  simp only [asks] at answers
  simp only [step]
  split
  · exact .leaf rfl
  rename_i nonzero
  rw [if_neg nonzero] at answers
  have leaves : ∀ leaf ∈ symbolicIn (factorsOf operands), leaf.Neat := by
    rw [factorsOf_eq]
    intro leaf member
    obtain ⟨operand, among, inside⟩ := List.mem_flatMap.mp (List.mem_of_mem_filter member)
    exact (neat operand among).factors leaf inside
  have powers : ∀ group ∈ likeBases (symbolicIn (factorsOf operands)),
      (answer (power group.1 (answer (sum group.2)))).Neat := by
    intro group among
    obtain ⟨⟨leaf, inside, same⟩, exponents⟩ := mem_likeBases among
    have exponent : (answer (sum group.2)).Neat := by
      refine answers _ (List.mem_flatMap.mpr ⟨group, among, List.mem_cons_self⟩) ?_
      intro exponent member
      simp only [Call.operands] at member
      rw [exponents] at member
      obtain ⟨other, listed, _, rfl⟩ := mem_exponents member
      exact (leaves other listed).baseAndExponent.2
    refine answers _ (List.mem_flatMap.mpr
      ⟨group, among, List.mem_cons_of_mem _ List.mem_cons_self⟩) ?_
    exact List.forall_mem_cons.mpr
      ⟨same ▸ (leaves leaf inside).baseAndExponent.1, List.forall_mem_singleton.mpr exponent⟩
  have parts : ∀ part ∈ ((likeBases (symbolicIn (factorsOf operands))).map fun group =>
      answer (power group.1 (answer (sum group.2)))).flatMap pieces,
      part.Neat ∧ part.label ≠ .mul := by
    intro part member
    obtain ⟨power, listed, inside⟩ := List.mem_flatMap.mp member
    obtain ⟨group, among, rfl⟩ := List.mem_map.mp listed
    exact neat_pieces (powers group among) part inside
  exact neat_ofFactors _ (fun part member => (parts part (List.mem_of_mem_filter member)).1)
    (fun part member => (parts part (List.mem_of_mem_filter member)).2)
    fun part member => asNumber?_of_symbolic member

theorem power_neat (base exponent : Expr κ)
    (answers : ∀ asked ∈ (power base exponent).asks answer, asked.StaysNeat (answer asked)) :
    (power base exponent).StaysNeat ((power base exponent).step answer) := by
  intro neat
  obtain ⟨first, rest⟩ := List.forall_mem_cons.mp neat
  have second := List.forall_mem_singleton.mp rest
  simp only [asks] at answers
  simp only [step]
  by_cases isZero : exponent.isZero
  · rw [if_pos isZero]
    exact .leaf rfl
  by_cases isOne : exponent.isOne
  · rw [if_neg isZero, if_pos isOne]
    exact first
  cases folds : foldedPower? base exponent with
  | some value => simpa [isZero, isOne] using Neat.number value
  | none =>
      simp only [isZero, isOne, folds, Option.isSome_none, Bool.or_self, Bool.false_eq_true,
        if_false] at answers ⊢
      have kept : (if base.isOne then one else pow base exponent).Neat := by
        split
        · exact .leaf rfl
        · exact neat_iff.mpr ⟨trivial, neat⟩
      cases whole : exponent.asNumber?.bind Scalar.wholeExponent? with
      | none => exact kept
      | some value =>
          rw [whole] at answers
          cases base with
          | pow inner innerExponent =>
              obtain ⟨raised, last⟩ := List.forall_mem_cons.mp answers
              refine List.forall_mem_singleton.mp last (List.forall_mem_cons.mpr
                ⟨first.child List.mem_cons_self, List.forall_mem_singleton.mpr (raised ?_)⟩)
              exact List.forall_mem_cons.mpr
                ⟨first.child (List.mem_cons_of_mem _ List.mem_cons_self),
                  List.forall_mem_singleton.mpr second⟩
          | mul operands =>
              obtain ⟨raised, last⟩ := List.forall_mem_append.mp answers
              refine List.forall_mem_singleton.mp last (List.forall_mem_map.mpr fun factor member => ?_)
              exact List.forall_mem_map.mp raised factor member
                (List.forall_mem_cons.mpr ⟨first.child member, List.forall_mem_singleton.mpr second⟩)
          | _ => exact kept

end

theorem step_neat (answer : Call κ → Expr κ) (call : Call κ)
    (answers : ∀ asked ∈ call.asks answer, asked.StaysNeat (answer asked)) :
    call.StaysNeat (call.step answer) := by
  cases call with
  | sum terms => exact sum_neat terms answers
  | product operands => exact product_neat operands answers
  | power base exponent => exact power_neat base exponent answers
  | apply function argument =>
      intro neat
      change (Expr.apply function argument).Neat
      unfold Expr.apply
      simp only
      split
      · exact .number _
      · exact neat_iff.mpr ⟨trivial, neat⟩
  | angle y x =>
      intro neat
      change (angleOf y x).Neat
      unfold angleOf
      split
      · exact .number _
      · exact neat_iff.mpr ⟨trivial, neat⟩
  | choose relation left right chosen otherwise =>
      intro neat
      have branches : chosen.Neat ∧ otherwise.Neat :=
        ⟨neat chosen (by simp [Call.operands]), neat otherwise (by simp [Call.operands])⟩
      change (Expr.choose relation left right chosen otherwise).Neat
      unfold Expr.choose
      split
      · split
        · exact branches.1
        · exact branches.2
      · split
        · exact branches.1
        · exact neat_iff.mpr ⟨trivial, neat⟩

theorem result_neat (call : Call κ) : call.StaysNeat call.result := call.result_induction step_neat

end Call

theorem inherited_neat : Inherited (Neat (κ := κ)) where
  number := .number
  result := Call.result_neat
  child := Neat.child

/-! ### What is obtained by constructors -/

theorem Inherited.collectWith {property : Expr κ → Prop} (inherited : Inherited property)
    (fuel : Nat) {terms : List (Expr κ)} (holds : ∀ term ∈ terms, property term) :
    ∀ term ∈ Simplifier.collectWith fuel terms, property term := by
  induction fuel generalizing terms with
  | zero => exact holds
  | succ fuel ih =>
      rw [Simplifier.collectWith]
      split
      · rename_i fewer collected
        obtain ⟨argument, rest, others, ⟨term, ⟨_, _, factors⟩, perm⟩, rfl⟩ :=
          Simplifier.collectOnce?_eq_some collected
        have inside {part : Expr κ} (member : part ∈ others) : property part :=
          holds part (perm.mem_iff.mpr (List.mem_cons_of_mem _ (List.mem_cons_of_mem _ member)))
        have whole : property term := holds term (perm.mem_iff.mpr List.mem_cons_self)
        have split : ∀ factor ∈ Simplifier.factorsOf term, property factor := by
          unfold Simplifier.factorsOf
          split
          · exact fun factor member => inherited.child whole member
          · exact List.forall_mem_singleton.mpr whole
        refine ih (List.forall_mem_append.mpr ⟨fun part member => inside member, ?_⟩)
        exact List.forall_mem_singleton.mpr (inherited.product fun factor member =>
          split factor (factors.mem_iff.mp (List.mem_cons_of_mem _ member)))
      · exact holds

theorem Inherited.collectIn {property : Expr κ → Prop} (inherited : Inherited property)
    {expr : Expr κ} (holds : property expr) : property (Simplifier.collectIn expr) := by
  induction expr using induct with
  | step expr ih =>
      have rebuilt : property (expr.rebuild (expr.children.map Simplifier.collectIn)) :=
        inherited.rebuild holds (List.forall_mem_map.mpr fun child member =>
          ih child member (inherited.child holds member))
      rw [Simplifier.collectIn_eq]
      unfold Simplifier.collect
      split
      · rename_i terms same
        rw [same] at rebuilt
        exact inherited.sum (inherited.collectWith _ fun term member =>
          inherited.child rebuilt member)
      · exact rebuilt

/-- What can be obtained of numbers and atoms: the results of calls, the operands of nodes, what is
left of a term without its coefficient, derivatives, and what comes of substitution and
simplification. -/
inductive Constructed : Expr κ → Prop where
  | number (value : κ) : Constructed (number value)
  | unit : Constructed one
  | atom (symbol : Atom) : Constructed (atom symbol)
  | call (call : Call κ) (operands : ∀ operand ∈ call.operands, Constructed operand) :
      Constructed call.result
  | child {expr operand : Expr κ} (constructed : Constructed expr)
      (member : operand ∈ expr.children) : Constructed operand
  | rest {term : Expr κ} (constructed : Constructed term) : Constructed term.splitCoefficient.2
  | derivative {expr : Expr κ} (constructed : Constructed expr) (unknown : Atom) :
      Constructed (expr.derivative unknown)
  | substitute {expr : Expr κ} (constructed : Constructed expr)
      {replacement : Atom → Option (Expr κ)}
      (replaced : ∀ symbol value, replacement symbol = some value → Constructed value) :
      Constructed (expr.substitute replacement)
  | simplified {expr result : Expr κ} {limit : Nat} (constructed : Constructed expr)
      (simplified : Simplifier.basic limit expr = .ok result) : Constructed result

theorem Constructed.neat {expr : Expr κ} (constructed : expr.Constructed) : expr.Neat := by
  induction constructed with
  | number value => exact .number value
  | unit => exact .leaf rfl
  | atom symbol => exact .leaf rfl
  | call call _ neat => exact call.result_neat neat
  | child _ member neat => exact neat.child member
  | rest _ neat => exact neat_splitCoefficient neat
  | derivative _ unknown neat => exact inherited_neat.derivative (.leaf rfl) unknown neat
  | substitute _ _ neat replaced => exact inherited_neat.substitute neat replaced
  | simplified _ simplified neat =>
      unfold Simplifier.basic at simplified
      simp only at simplified
      split at simplified
      · cases simplified
      · cases simplified
        exact inherited_neat.collectIn neat

/-! ### Operations are counted without loss -/

def before? : Nat → Option Nat
  | 0 => none
  | count + 1 => some count

def total? : List (Option Nat) → Option Nat
  | [] => some 0
  | head :: tail => do
    let first ← head
    let rest ← total? tail
    return first + rest

/-- The operations of a node; none if it would take one operation less than nothing. -/
def operationsAt? (expr : Expr κ) (below : List (Option Nat)) : Option Nat :=
  match expr with
  | num _ => some 0
  | atom _ => some 0
  | add terms => do return (← before? terms.length) + (← total? below)
  | mul operands => do return (← before? operands.length) + (← total? below)
  | _ => (total? below).map (1 + ·)

def operations? (expr : Expr κ) : Option Nat := fold operationsAt? expr

theorem operations?_eq (expr : Expr κ) :
    expr.operations? = operationsAt? expr (expr.children.map operations?) :=
  fold_eq operationsAt? expr

theorem total?_some (counts : List Nat) : total? (counts.map some) = some (total counts) := by
  induction counts with
  | nil => rfl
  | cons head tail ih => simp [total?, total, ih]

theorem before?_pos {count : Nat} (positive : 0 < count) : before? count = some (count - 1) := by
  cases count with
  | zero => cases positive
  | succ count => rfl

theorem Tidy.operationsAt? {expr : Expr κ} (tidy : expr.Tidy) (counts : List Nat) :
    expr.operationsAt? (counts.map some) = some (expr.operationsAt counts) := by
  cases expr with
  | num | atom => rfl
  | add terms =>
      have positive : 0 < terms.length := Nat.lt_of_lt_of_le Nat.two_pos tidy.1
      simp only [Expr.operationsAt?, operationsAt, before?_pos positive, total?_some]
      rfl
  | mul operands =>
      have positive : 0 < operands.length := Nat.lt_of_lt_of_le Nat.two_pos tidy.several
      simp only [Expr.operationsAt?, operationsAt, before?_pos positive, total?_some]
      rfl
  | _ => exact congrArg (Option.map (1 + ·)) (total?_some counts)

theorem Neat.operations? {expr : Expr κ} (neat : expr.Neat) :
    expr.operations? = some expr.operations := by
  induction expr using induct with
  | step expr ih =>
      have below : expr.children.map Expr.operations? =
          (expr.children.map operations).map some := by
        rw [List.map_map]
        exact List.map_congr_left fun child member => ih child member (neat.child member)
      rw [operations?_eq, operations_eq, below, neat.tidy.operationsAt?]

/-! ### Coefficients are taken out whole -/

/-- A coefficient in front of a term, and the factors that remain: none of them is a number. -/
inductive TakesOut : Expr κ → κ → Expr κ → Prop where
  | number (value : κ) : TakesOut (num value) value one
  | alone {term : Expr κ} (symbolic : ∀ factor ∈ term.factors, factor.asNumber? = none) :
      TakesOut term 1 term
  | front {term rest : Expr κ} {coefficient : κ}
      (whole : term.factors = num coefficient :: rest.factors)
      (symbolic : ∀ factor ∈ rest.factors, factor.asNumber? = none) :
      TakesOut term coefficient rest

theorem TidyProduct.symbolic {head : Expr κ} {tail : List (Expr κ)}
    (tidy : TidyProduct (head :: tail)) (symbolic : head.asNumber? = none) :
    ∀ factor ∈ head :: tail, factor.asNumber? = none :=
  List.forall_mem_cons.mpr ⟨symbolic, Sorted.symbolic_tail tidy.ordered symbolic⟩

theorem Neat.takesOut {term : Expr κ} (neat : term.Neat) :
    TakesOut term term.splitCoefficient.1 term.splitCoefficient.2 := by
  cases term with
  | num value => exact .number value
  | mul operands =>
      have tidy : TidyProduct operands := neat.tidy
      have leaves : (mul operands).factors = operands := factorsOf_eq_self tidy.flat
      cases operands with
      | nil => exact absurd tidy.several (by simp)
      | cons head tail =>
          cases numeric : head.asNumber? with
          | none =>
              have unscaled : (mul (head :: tail)).splitCoefficient = (1, mul (head :: tail)) := by
                cases head with
                | num => cases numeric
                | _ => rfl
              rw [unscaled]
              refine .alone ?_
              rw [leaves]
              exact tidy.symbolic numeric
          | some value =>
              obtain rfl := asNumber?_eq_some.mp numeric
              have flat := (List.forall_mem_cons.mp tidy.flat).2
              rcases tail with _ | ⟨first, _ | ⟨second, others⟩⟩
              · exact absurd tidy.several (by simp)
              · have single : first.factors = [first] := factors_eq_self (flat first List.mem_cons_self)
                change TakesOut (mul [num value, first]) value first
                refine .front ?_ ?_
                · rw [leaves, single]
                · rw [single]
                  exact tidy.tail
              · have several : (mul (first :: second :: others)).factors = first :: second :: others :=
                  factorsOf_eq_self flat
                change TakesOut _ value (mul (first :: second :: others))
                refine .front ?_ ?_
                · rw [leaves, several]
                · rw [several]
                  exact tidy.tail
  | _ =>
      refine .alone (List.forall_mem_singleton.mpr rfl)

/-! ### Every factor is written -/

/-- A fraction in which every factor has its place: a number in front, a power with a negative
exponent below the line, turned over, and any other factor above it. -/
structure Fraction.Covers (fraction : Fraction κ) (operands : List (Expr κ)) : Prop where
  number : numbersIn operands = [] ∧ fraction.coefficient = 1 ∨
    numbersIn operands = [fraction.coefficient]
  places : ∃ under : List (Expr κ),
    operands.Perm ((numbersIn operands).map num ++ fraction.numerator ++ under) ∧
      under.map below? = fraction.denominator.map some

theorem perm_numbers (operands : List (Expr κ)) :
    operands.Perm ((numbersIn operands).map num ++ symbolicIn operands) := by
  induction operands with
  | nil => exact .refl _
  | cons head tail ih =>
      cases numeric : head.asNumber? with
      | none =>
          have numbers : numbersIn (head :: tail) = numbersIn tail :=
            List.filterMap_cons_none numeric
          have symbols : symbolicIn (head :: tail) = head :: symbolicIn tail :=
            List.filter_cons_of_pos (by rw [numeric]; rfl)
          rw [numbers, symbols]
          exact (ih.cons head).trans List.perm_middle.symm
      | some value =>
          obtain rfl := asNumber?_eq_some.mp numeric
          rw [numbersIn_num, symbolicIn_num]
          exact ih.cons _

theorem TidyProduct.numbers {operands : List (Expr κ)} (tidy : TidyProduct operands) :
    numbersIn operands = [] ∨ ∃ value, numbersIn operands = [value] := by
  cases operands with
  | nil => exact Or.inl rfl
  | cons head tail =>
      cases numeric : head.asNumber? with
      | none => exact Or.inl (numbersIn_eq_nil (tidy.symbolic numeric))
      | some value =>
          obtain rfl := asNumber?_eq_some.mp numeric
          exact Or.inr ⟨value, by rw [numbersIn_num, numbersIn_eq_nil tidy.tail]⟩

theorem TidyProduct.covers {operands : List (Expr κ)} (tidy : TidyProduct operands) :
    (Fraction.ofFactors operands).Covers operands := by
  constructor
  · rcases tidy.numbers with none | ⟨value, single⟩
    · exact Or.inl ⟨none, by simp [Fraction.ofFactors, none]⟩
    · exact Or.inr (by simp [Fraction.ofFactors, single])
  · refine ⟨(symbolicIn operands).filter fun factor => (below? factor).isSome, ?_, ?_⟩
    · have halves := List.filter_append_perm (fun factor => (below? factor).isNone)
        (symbolicIn operands)
      rw [List.append_assoc]
      refine (perm_numbers operands).trans (List.Perm.append_left _ (halves.symm.trans ?_))
      simp [Fraction.ofFactors]
    · have symbolic : (fun factor : Expr κ => (below? factor).isSome && factor.asNumber?.isNone) =
          fun factor => (below? factor).isSome := by
        funext factor
        cases factor with
        | num => rfl
        | _ => exact Bool.and_true _
      rw [symbolicIn, List.filter_filter, symbolic, Fraction.ofFactors,
        List.map_filterMap_some_eq_filter_map_isSome, List.filter_map]
      rfl

theorem mem_numerator {operands : List (Expr κ)} {factor : Expr κ} (member : factor ∈ operands)
    (symbolic : factor.asNumber? = none) (above : below? factor = none) :
    factor ∈ (Fraction.ofFactors operands).numerator :=
  List.mem_filter.mpr ⟨List.mem_filter.mpr ⟨member, by rw [symbolic]; rfl⟩, by rw [above]; rfl⟩

theorem TidyProduct.coefficient {operands : List (Expr κ)} (tidy : TidyProduct operands) {value : κ}
    (member : num value ∈ operands) :
    (Fraction.ofFactors operands).coefficient = value ∧ Scalar.isOne value = false := by
  obtain ⟨position, found⟩ := List.mem_iff_getElem?.mp member
  refine ⟨?_, (tidy.number position value found).2.2⟩
  have among := mem_numbersIn.mpr member
  rcases tidy.covers.number with ⟨nothing, _⟩ | single
  · rw [nothing] at among
    cases among
  · rw [single] at among
    exact (List.mem_singleton.mp among).symm

variable [ScalarText κ]

def Within (part whole : String) : Prop := ∃ before after, whole = before ++ part ++ after

namespace Within

variable {part whole : String}

theorem refl (part : String) : Within part part := ⟨"", "", by simp⟩

theorem append (within : Within part whole) (later : String) : Within part (whole ++ later) := by
  obtain ⟨before, after, rfl⟩ := within
  exact ⟨before, after ++ later, by simp [String.append_assoc]⟩

theorem prepend (within : Within part whole) (earlier : String) :
    Within part (earlier ++ whole) := by
  obtain ⟨before, after, rfl⟩ := within
  exact ⟨earlier ++ before, after, by simp [String.append_assoc]⟩

theorem joined (separator : String) {parts : List String} (member : part ∈ parts) :
    Within part (joined separator parts) := by
  induction parts with
  | nil => cases member
  | cons head tail ih =>
      cases tail with
      | nil =>
          obtain rfl := List.mem_singleton.mp member
          exact ⟨"", "", by simp [Expr.joined]⟩
      | cons next rest =>
          have split : Expr.joined separator (head :: next :: rest) =
              head ++ separator ++ Expr.joined separator (next :: rest) := by
            refine String.toList_inj.mp ?_
            simp [Expr.joined, String.toList_intercalate]
          rw [split]
          rcases List.mem_cons.mp member with rfl | later
          · exact ((refl _).append _).append _
          · exact (ih later).prepend _

end Within

/-- What stands for a factor in the text of a product. Of minus one only the sign may be left. -/
def StandsFor (rounds : Nat) (factor : Expr κ) (piece : String) : Prop :=
  match factor with
  | num value =>
    piece = ScalarText.expression value ∨ Scalar.isEqual value (-1) = true ∧ piece = "-"
  | _ => ∃ place, piece = textWith rounds place ((below? factor).getD factor)

theorem within_coefficientText (rounds : Nat) {coefficient : κ}
    (notOne : Scalar.isOne coefficient = false) (alone : Bool) :
    ∃ piece, StandsFor rounds (num coefficient) piece ∧
      Within piece (coefficientText coefficient alone) := by
  unfold coefficientText
  split
  · rename_i minusOne
    exact ⟨"-", Or.inr ⟨(Bool.and_eq_true_iff.mp minusOne).1, rfl⟩, .refl _⟩
  · rw [if_pos (by simp [notOne])]
    exact ⟨_, Or.inl rfl, (Within.refl _).append _⟩

theorem standsFor_below {factor lowered : Expr κ} (lower : below? factor = some lowered)
    (rounds place : Nat) : StandsFor rounds factor (textWith rounds place lowered) := by
  cases factor with
  | num => cases lower
  | _ => exact ⟨place, by rw [lower]; rfl⟩

theorem standsFor_above {factor : Expr κ} (symbolic : factor.asNumber? = none)
    (above : below? factor = none) (rounds place : Nat) :
    StandsFor rounds factor (textWith rounds place factor) := by
  cases factor with
  | num => cases symbolic
  | _ => exact ⟨place, by rw [above]; rfl⟩

theorem TidyProduct.written {operands : List (Expr κ)} (tidy : TidyProduct operands)
    (rounds place : Nat) : ∀ factor ∈ operands, ∃ piece, StandsFor rounds factor piece ∧
      Within piece (textWith (rounds + 1) place (mul operands)) := by
  intro factor member
  rw [textWith]
  simp only
  generalize written : coefficientText (Fraction.ofFactors operands).coefficient
      (Fraction.ofFactors operands).numerator.isEmpty ++
    joined "*" ((Fraction.ofFactors operands).numerator.map (textWith rounds Precedence.product)) ++
    _ = body
  -- the brackets around the body hide nothing of it
  have inside : ∃ piece, StandsFor rounds factor piece ∧ Within piece body := by
    subst written
    cases lower : below? factor with
    | some lowered =>
        have under : lowered ∈ (Fraction.ofFactors operands).denominator :=
          List.mem_filterMap.mpr ⟨factor, member, lower⟩
        split
        · rename_i nothing
          rw [nothing] at under
          cases under
        · rename_i single
          rw [single] at under
          obtain rfl := List.mem_singleton.mp under
          exact ⟨_, standsFor_below lower _ _, ((Within.refl _).prepend _).prepend _⟩
        · exact ⟨_, standsFor_below lower _ _,
            (((Within.joined "*" (List.mem_map_of_mem under)).prepend _).append _).prepend _⟩
    | none =>
        cases numeric : factor.asNumber? with
        | none =>
            have above := mem_numerator member numeric lower
            exact ⟨_, standsFor_above numeric lower _ _,
              ((Within.joined "*" (List.mem_map_of_mem above)).prepend _).append _⟩
        | some value =>
            obtain rfl := asNumber?_eq_some.mp numeric
            obtain ⟨coefficient, notOne⟩ := tidy.coefficient member
            obtain ⟨piece, stands, within⟩ := within_coefficientText rounds notOne
              (Fraction.ofFactors operands).numerator.isEmpty
            rw [coefficient]
            exact ⟨piece, stands, (within.append _).append _⟩
  obtain ⟨piece, stands, within⟩ := inside
  refine ⟨piece, stands, ?_⟩
  split
  · exact (within.prepend _).append _
  · exact within

/-! ### All nodes of all expressions -/

/-- A tidy node, of which nothing is lost when its operations are counted, when its coefficient is
taken out, and when it is written. -/
structure Lossless (node : Expr κ) : Prop where
  tidy : node.Tidy
  counted : node.operations? = some node.operations
  split : TakesOut node node.splitCoefficient.1 node.splitCoefficient.2
  written : ∀ operands, node = mul operands →
    (Fraction.ofFactors operands).Covers operands ∧
      ∀ rounds place, ∀ factor ∈ operands, ∃ piece, StandsFor rounds factor piece ∧
        Within piece (textWith (rounds + 1) place node)

theorem constructed_lossless {expr : Expr κ} (constructed : expr.Constructed) :
    ∀ node ∈ expr.parts, node.Lossless := by
  intro node member
  have neat : node.Neat := parts_induction constructed.neat (fun parent among => parent.child among)
    node member
  refine ⟨neat.tidy, neat.operations?, neat.takesOut, fun operands same => ?_⟩
  subst same
  have tidy : TidyProduct operands := neat.tidy
  exact ⟨tidy.covers, tidy.written⟩

namespace Cubed

def x : Atom := .whole ⟨0, "x", .scalar, .real⟩

/-- The power of a product, of which the factors are raised one by one. -/
def cube : Expr Float := power (product [number 2, atom x]) (number 3)

theorem constructed_cube : cube.Constructed :=
  .call (.power _ _) (List.forall_mem_cons.mpr
    ⟨.call (.product _) (List.forall_mem_cons.mpr
      ⟨.number 2, List.forall_mem_singleton.mpr (.atom x)⟩),
      List.forall_mem_singleton.mpr (.number 3)⟩)

theorem derivative_cube_lossless : (cube.derivative x).Constructed ∧
    ∀ node ∈ (cube.derivative x).parts, node.Lossless :=
  ⟨constructed_cube.derivative x, constructed_lossless (constructed_cube.derivative x)⟩

end Cubed

end Expr

end Mechanism
