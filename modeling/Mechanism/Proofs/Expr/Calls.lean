import Mechanism.Proofs.Expr.Constructed

/-!
How the constructors call each other. A sum asks for products, a product for sums and powers, and a
power for products and powers of operands that may be larger than its own. What becomes less with
every call is how high the operands stand: among the terms of a sum, among the factors of a product
and in the base of a power. So every computation of a call ends, and the rounds that are counted
down are never used up.
-/

namespace Mechanism.Expr

variable {κ : Type} [Scalar κ]

/-! ### Calls of calls -/

namespace Call

/-- What a call comes to, when the calls that it makes are answered. -/
def step (answer : Call κ → Expr κ) : Call κ → Expr κ
  | sum terms =>
    let leaves := addendsOf terms
    let constant := (numbersIn leaves).foldl (· + ·) 0
    let collected := (likeTerms (symbolicIn leaves)).filterMap
      (scaledTerm? fun operands => answer (product operands))
    ofTerms (collected ++ (if Scalar.isZero constant then [] else [number constant]))
  | product operands =>
    let leaves := factorsOf operands
    let coefficient := (numbersIn leaves).foldl (· * ·) 1
    if Scalar.isZero coefficient then zero
    else
      let powers := (likeBases (symbolicIn leaves)).map fun group =>
        answer (power group.1 (answer (sum group.2)))
      let parts := powers.flatMap pieces
      ofFactors ((numbersIn parts).foldl (· * ·) coefficient) (symbolicIn parts)
  | power base exponent =>
    if exponent.isZero then one
    else if exponent.isOne then base
    else
      match foldedPower? base exponent with
      | some value => number value
      | none =>
        match exponent.asNumber?.bind Scalar.wholeExponent?, base with
        | some _, pow inner innerExponent =>
          answer (power inner (answer (product [innerExponent, exponent])))
        | some _, mul operands =>
          answer (product (operands.map fun factor => answer (power factor exponent)))
        | _, _ => if base.isOne then one else pow base exponent
  | other => other.result

/-- The calls that a call makes. A call may depend on what another one was answered. -/
def asks (answer : Call κ → Expr κ) : Call κ → List (Call κ)
  | sum terms =>
    (likeTerms (symbolicIn (addendsOf terms))).filterMap fun term =>
      if Scalar.isZero term.2 || Scalar.isOne term.2 then none
      else some (product [number term.2, term.1])
  | product operands =>
    if Scalar.isZero ((numbersIn (factorsOf operands)).foldl (· * ·) 1) then []
    else (likeBases (symbolicIn (factorsOf operands))).flatMap fun group =>
      [sum group.2, power group.1 (answer (sum group.2))]
  | power base exponent =>
    if exponent.isZero || exponent.isOne || (foldedPower? base exponent).isSome then []
    else
      match exponent.asNumber?.bind Scalar.wholeExponent?, base with
      | some _, pow inner innerExponent =>
        [product [innerExponent, exponent], power inner (answer (product [innerExponent, exponent]))]
      | some _, mul operands =>
        operands.map (power · exponent) ++
          [product (operands.map fun factor => answer (power factor exponent))]
      | _, _ => []
  | _ => []

def resultWith (rounds : Nat) : Call κ → Expr κ
  | sum terms => sumWith rounds terms
  | product operands => productWith rounds operands
  | power base exponent => powerWith rounds base exponent
  | other => other.result

theorem resultWith_succ (rounds : Nat) (call : Call κ) :
    call.resultWith (rounds + 1) = call.step (resultWith rounds) := by
  cases call with
  | sum terms => rw [resultWith, sumWith]; rfl
  | product operands => rw [resultWith, productWith]; rfl
  | power base exponent =>
      rw [resultWith, powerWith.eq_def]
      rfl
  | apply | angle | choose => rfl

theorem result_eq (call : Call κ) :
    call.result = call.resultWith (fuelFor (nestingOf call.operands)) := by
  cases call with
  | power base exponent =>
      have most : nestingOf [base, exponent] = max base.nesting exponent.nesting := by
        simp [nestingOf]
      rw [operands, most]
      rfl
  | _ => rfl

section Congruence

variable {answer other : Call κ → Expr κ}

theorem step_sum_congr {terms : List (Expr κ)}
    (agree : ∀ asked ∈ (sum terms).asks answer, answer asked = other asked) :
    (sum terms).step answer = (sum terms).step other := by
  have scaled : ∀ term ∈ likeTerms (symbolicIn (addendsOf terms)),
      scaledTerm? (fun operands => answer (product operands)) term =
        scaledTerm? (fun operands => other (product operands)) term := by
    intro term member
    unfold scaledTerm?
    split
    · rfl
    split
    · rfl
    rename_i nonzero notOne
    refine congrArg some (agree _ (List.mem_filterMap.mpr ⟨term, member, ?_⟩))
    rw [if_neg (by simp [nonzero, notOne])]
  simp only [step, List.filterMap_congr scaled]

theorem step_product_congr {operands : List (Expr κ)}
    (agree : ∀ asked ∈ (product operands).asks answer, answer asked = other asked) :
    (product operands).asks answer = (product operands).asks other ∧
      (product operands).step answer = (product operands).step other := by
  simp only [asks, step] at agree ⊢
  by_cases vanishes : Scalar.isZero ((numbersIn (factorsOf operands)).foldl (· * ·) 1)
  · simp only [vanishes, if_true, and_self]
  simp only [vanishes, Bool.false_eq_true, if_false] at agree ⊢
  generalize likeBases (symbolicIn (factorsOf operands)) = groups at agree ⊢
  have sums : ∀ group ∈ groups, answer (sum group.2) = other (sum group.2) :=
    fun group member => agree _ (List.mem_flatMap.mpr ⟨group, member, List.mem_cons_self⟩)
  have powers : ∀ group ∈ groups, answer (power group.1 (answer (sum group.2))) =
      other (power group.1 (other (sum group.2))) := by
    intro group member
    rw [← sums group member]
    exact agree _ (List.mem_flatMap.mpr
      ⟨group, member, List.mem_cons_of_mem _ List.mem_cons_self⟩)
  refine ⟨?_, by rw [List.map_congr_left powers]⟩
  rw [List.flatMap_def, List.flatMap_def, List.map_congr_left]
  intro group member
  rw [sums group member]

theorem step_power_congr {base exponent : Expr κ}
    (agree : ∀ asked ∈ (power base exponent).asks answer, answer asked = other asked) :
    (power base exponent).asks answer = (power base exponent).asks other ∧
      (power base exponent).step answer = (power base exponent).step other := by
  simp only [asks, step] at agree ⊢
  by_cases isZero : exponent.isZero
  · simp only [isZero, if_true, Bool.true_or, and_self]
  by_cases isOne : exponent.isOne
  · simp only [isOne, if_true, Bool.or_true, Bool.true_or, and_self]
  cases folds : foldedPower? base exponent with
  | some value => simp
  | none =>
      simp only [isZero, isOne, folds, Option.isSome_none, Bool.or_self, Bool.false_eq_true,
        if_false] at agree ⊢
      cases whole : exponent.asNumber?.bind Scalar.wholeExponent? with
      | none => exact ⟨rfl, rfl⟩
      | some number =>
          rw [whole] at agree
          cases base with
          | pow inner innerExponent =>
              obtain ⟨first, second⟩ := List.forall_mem_cons.mp agree
              have last := List.forall_mem_singleton.mp second
              simp only
              rw [first] at last ⊢
              exact ⟨rfl, last⟩
          | mul operands =>
              obtain ⟨first, second⟩ := List.forall_mem_append.mp agree
              have last := List.forall_mem_singleton.mp second
              have powers : operands.map (fun factor => answer (power factor exponent)) =
                  operands.map fun factor => other (power factor exponent) :=
                List.map_congr_left (List.forall_mem_map.mp first)
              simp only
              rw [powers] at last ⊢
              exact ⟨rfl, last⟩
          | _ => exact ⟨rfl, rfl⟩

theorem step_congr {call : Call κ} (agree : ∀ asked ∈ call.asks answer, answer asked = other asked) :
    call.asks answer = call.asks other ∧ call.step answer = call.step other := by
  cases call with
  | sum terms => exact ⟨rfl, step_sum_congr agree⟩
  | product operands => exact step_product_congr agree
  | power base exponent => exact step_power_congr agree
  | apply | angle | choose => exact ⟨rfl, rfl⟩

end Congruence

end Call

/-- A computation of a call that ends: the calls that it makes are computed less deeply, and it comes
to what they make of it. -/
inductive EndsWithin : Nat → Call κ → Expr κ → Prop where
  | intro {depth : Nat} {call : Call κ} (answer : Call κ → Expr κ)
      (ends : ∀ asked ∈ call.asks answer, EndsWithin depth asked (answer asked)) :
      EndsWithin (depth + 1) call (call.step answer)

/-! ### How high operands stand -/

/-- How high an expression stands as a term, as a factor and as the base of a power. -/
structure Heights where
  term : Nat
  factor : Nat
  base : Nat

def heightsAt (expr : Expr κ) (below : List Heights) : Heights :=
  match expr, below with
  | num _, _ => ⟨0, 1, 0⟩
  | add _, _ =>
    let most := (below.map Heights.term).foldr max 0
    ⟨most, most + 1, most⟩
  | mul _, _ =>
    let most := max 1 ((below.map Heights.factor).foldr max 0)
    ⟨most, most, (below.map Heights.base).foldr max 0 + 1⟩
  | pow .., [base, exponent] =>
    let most := max base.base exponent.term + 1
    ⟨most, most, max base.base (exponent.term + 1) + 1⟩
  | _, _ => ⟨1, 1, 0⟩

def heights (expr : Expr κ) : Heights := recurse heightsAt expr

theorem heights_eq (expr : Expr κ) : expr.heights = heightsAt expr (expr.children.map heights) :=
  recurse_eq heightsAt expr

theorem term_add_le {terms : List (Expr κ)} {most : Nat} :
    (add terms).heights.term ≤ most ↔ ∀ term ∈ terms, term.heights.term ≤ most := by
  rw [heights_eq, heightsAt, foldr_max_le, List.map_map, List.forall_mem_map]
  rfl

theorem factor_add (terms : List (Expr κ)) :
    (add terms).heights.factor = (add terms).heights.term + 1 := by
  rw [heights_eq]
  rfl

theorem base_add (terms : List (Expr κ)) : (add terms).heights.base = (add terms).heights.term := by
  rw [heights_eq]
  rfl

theorem factor_mul_le {operands : List (Expr κ)} {most : Nat} :
    (mul operands).heights.factor ≤ most ↔
      1 ≤ most ∧ ∀ operand ∈ operands, operand.heights.factor ≤ most := by
  rw [heights_eq, heightsAt, max_le_iff, foldr_max_le, List.map_map, List.forall_mem_map]
  rfl

theorem term_mul (operands : List (Expr κ)) :
    (mul operands).heights.term = (mul operands).heights.factor := by
  rw [heights_eq]
  rfl

theorem base_mul_le {operands : List (Expr κ)} {most : Nat} :
    (mul operands).heights.base ≤ most + 1 ↔ ∀ operand ∈ operands, operand.heights.base ≤ most := by
  rw [heights_eq, heightsAt, Nat.add_le_add_iff_right, foldr_max_le, List.map_map,
    List.forall_mem_map]
  rfl

theorem base_lt_mul {operands : List (Expr κ)} {operand : Expr κ} (member : operand ∈ operands) :
    operand.heights.base < (mul operands).heights.base := by
  have positive : 0 < (mul operands).heights.base := by
    rw [heights_eq]
    exact Nat.succ_pos _
  obtain ⟨most, same⟩ := Nat.exists_eq_succ_of_ne_zero positive.ne'
  rw [same]
  exact Nat.lt_succ_of_le (base_mul_le.mp same.le operand member)

theorem heights_pow (base exponent : Expr κ) :
    (pow base exponent).heights =
      ⟨max base.heights.base exponent.heights.term + 1,
        max base.heights.base exponent.heights.term + 1,
        max base.heights.base (exponent.heights.term + 1) + 1⟩ :=
  heights_eq _

@[simp] theorem heights_num (value : κ) : (num value).heights = ⟨0, 1, 0⟩ := heights_eq _

@[simp] theorem heights_number (value : κ) : (number value).heights = ⟨0, 1, 0⟩ := heights_num _

@[simp] theorem heights_zero : (zero : Expr κ).heights = ⟨0, 1, 0⟩ := heights_num _

@[simp] theorem heights_one : (one : Expr κ).heights = ⟨0, 1, 0⟩ := heights_num _

@[simp] theorem heights_atom (symbol : Atom) : (atom symbol : Expr κ).heights = ⟨1, 1, 0⟩ :=
  heights_eq _

@[simp] theorem heights_call (function : Elementary) (argument : Expr κ) :
    (call function argument).heights = ⟨1, 1, 0⟩ := heights_eq _

@[simp] theorem heights_angle (y x : Expr κ) : (angle y x).heights = ⟨1, 1, 0⟩ := heights_eq _

@[simp] theorem heights_cond (relation : Relation) (left right chosen otherwise : Expr κ) :
    (cond relation left right chosen otherwise).heights = ⟨1, 1, 0⟩ := heights_eq _

theorem one_le_factor (expr : Expr κ) : 1 ≤ expr.heights.factor := by
  cases expr with
  | add terms => rw [factor_add]; exact Nat.succ_pos _
  | mul operands => exact (factor_mul_le.mp le_rfl).1
  | pow base exponent => rw [heights_pow]; exact Nat.succ_pos _
  | _ => simp

theorem term_le_factor (expr : Expr κ) : expr.heights.term ≤ expr.heights.factor := by
  cases expr with
  | add terms => rw [factor_add]; exact Nat.le_succ _
  | mul operands => rw [term_mul]
  | pow base exponent => rw [heights_pow]
  | _ => simp

theorem factor_le_term (expr : Expr κ) : expr.heights.factor ≤ expr.heights.term + 1 := by
  cases expr with
  | add terms => rw [factor_add]
  | mul operands => rw [term_mul]; exact Nat.le_succ _
  | pow base exponent => rw [heights_pow]; exact Nat.le_succ _
  | _ => simp

theorem factor_le_base (expr : Expr κ) : expr.heights.factor ≤ expr.heights.base + 1 := by
  induction expr using induct with
  | step expr ih =>
      cases expr with
      | add terms => rw [factor_add, base_add]
      | mul operands =>
          refine factor_mul_le.mpr ⟨Nat.succ_pos _, fun operand member => ?_⟩
          have below := base_lt_mul member
          have here := ih operand member
          omega
      | pow base exponent =>
          rw [heights_pow]
          simp only
          omega
      | _ => simp

theorem heights_le_nesting (expr : Expr κ) :
    expr.heights.factor ≤ 2 * expr.nesting + 1 ∧ expr.heights.base ≤ 2 * expr.nesting + 1 := by
  induction expr using induct with
  | step expr ih =>
      cases expr with
      | add terms =>
          have below : (add terms).heights.term ≤ 2 * (add terms).nesting := by
            refine term_add_le.mpr fun term member => ?_
            have nested := nesting_lt_add member
            have here := (ih term member).1
            have least := term.term_le_factor
            omega
          rw [factor_add, base_add]
          omega
      | mul operands =>
          constructor
          · refine factor_mul_le.mpr ⟨Nat.succ_pos _, fun operand member => ?_⟩
            have nested := nesting_lt_mul member
            have here := (ih operand member).1
            omega
          · refine base_mul_le.mpr fun operand member => ?_
            have nested := nesting_lt_mul member
            have here := (ih operand member).2
            omega
      | pow base exponent =>
          have first := (ih base List.mem_cons_self).2
          have second := (ih exponent (List.mem_cons_of_mem _ List.mem_cons_self)).1
          have least := exponent.term_le_factor
          rw [heights_pow, nesting_pow]
          simp only
          omega
      | _ => simp

/-! ### The heights of what is collected -/

theorem flat_addends (expr : Expr κ) : ∀ leaf ∈ expr.addends, leaf.label ≠ .add := by
  induction expr using induct with
  | step expr ih =>
      cases expr with
      | add terms =>
          rw [addends, addendsOf_eq]
          intro leaf member
          obtain ⟨term, among, inside⟩ := List.mem_flatMap.mp member
          exact ih term among leaf inside
      | _ => simp [addends, label]

theorem term_addends_le (expr : Expr κ) :
    ∀ leaf ∈ expr.addends, leaf.heights.term ≤ expr.heights.term := by
  induction expr using induct with
  | step expr ih =>
      cases expr with
      | add terms =>
          rw [addends, addendsOf_eq]
          intro leaf member
          obtain ⟨term, among, inside⟩ := List.mem_flatMap.mp member
          exact (ih term among leaf inside).trans (term_add_le.mp le_rfl term among)
      | _ => exact List.forall_mem_singleton.mpr le_rfl

theorem factor_factors_le (expr : Expr κ) :
    ∀ leaf ∈ expr.factors, leaf.heights.factor ≤ expr.heights.factor := by
  induction expr using induct with
  | step expr ih =>
      cases expr with
      | mul operands =>
          rw [factors, factorsOf_eq]
          intro leaf member
          obtain ⟨operand, among, inside⟩ := List.mem_flatMap.mp member
          exact (ih operand among leaf inside).trans ((factor_mul_le.mp le_rfl).2 operand among)
      | _ => exact List.forall_mem_singleton.mpr le_rfl

theorem factor_rest_le {term : Expr κ} (flat : term.label ≠ .add)
    (symbolic : term.asNumber? = none) :
    term.splitCoefficient.2.heights.factor ≤ term.heights.term := by
  unfold splitCoefficient
  split
  · cases symbolic
  · rw [term_mul]
    exact (factor_mul_le.mp le_rfl).2 _ (by simp)
  · rw [term_mul]
    obtain ⟨positive, below⟩ := factor_mul_le.mp (le_refl (mul (num _ :: _) : Expr κ).heights.factor)
    exact factor_mul_le.mpr ⟨positive, fun operand member =>
      below operand (List.mem_cons_of_mem _ member)⟩
  · cases term with
    | num => cases symbolic
    | add => exact absurd rfl flat
    | mul operands => rw [term_mul]
    | pow base exponent => rw [heights_pow]
    | _ => simp

theorem like_term_le {terms : List (Expr κ)} {most : Nat}
    (below : ∀ term ∈ terms, term.heights.term ≤ most) {group : Expr κ × κ}
    (member : group ∈ likeTerms (symbolicIn (addendsOf terms))) :
    group.1.heights.factor ≤ most := by
  obtain ⟨leaf, among, same⟩ := mem_likeTerms member
  have inside := List.mem_of_mem_filter among
  rw [addendsOf_eq] at inside
  obtain ⟨term, listed, leafOf⟩ := List.mem_flatMap.mp inside
  rw [← same]
  exact (factor_rest_le (flat_addends term leaf leafOf) (asNumber?_of_symbolic among)).trans
    ((term_addends_le term leaf leafOf).trans (below term listed))

theorem baseAndExponent_lt {factor : Expr κ} (flat : factor.label ≠ .mul) :
    factor.baseAndExponent.1.heights.base < factor.heights.factor ∧
      factor.baseAndExponent.2.heights.term < factor.heights.factor := by
  cases factor with
  | mul => exact absurd rfl flat
  | pow base exponent =>
      rw [heights_pow]
      simp only [baseAndExponent]
      omega
  | add terms =>
      rw [factor_add]
      simp only [baseAndExponent, base_add, heights_one]
      omega
  | _ => simp [baseAndExponent]

theorem like_base_lt {operands : List (Expr κ)} {most : Nat}
    (below : ∀ operand ∈ operands, operand.heights.factor ≤ most) {group : Expr κ × List (Expr κ)}
    (member : group ∈ likeBases (symbolicIn (factorsOf operands))) :
    group.1.heights.base < most ∧ ∀ exponent ∈ group.2, exponent.heights.term < most := by
  have lower : ∀ leaf ∈ symbolicIn (factorsOf operands),
      leaf.baseAndExponent.1.heights.base < most ∧ leaf.baseAndExponent.2.heights.term < most := by
    intro leaf among
    have inside := List.mem_of_mem_filter among
    rw [factorsOf_eq] at inside
    obtain ⟨operand, listed, leafOf⟩ := List.mem_flatMap.mp inside
    have bound := (factor_factors_le operand leaf leafOf).trans (below operand listed)
    obtain ⟨base, exponent⟩ := baseAndExponent_lt (flat_factors operand leaf leafOf)
    exact ⟨base.trans_le bound, exponent.trans_le bound⟩
  obtain ⟨⟨leaf, among, same⟩, exponents⟩ := mem_likeBases member
  refine ⟨same ▸ (lower leaf among).1, fun exponent inside => ?_⟩
  rw [exponents] at inside
  obtain ⟨other, listed, _, rfl⟩ := mem_exponents inside
  exact (lower other listed).2

/-! ### What calls make of the heights -/

theorem term_ofTerms_le {terms : List (Expr κ)} {most : Nat}
    (below : ∀ term ∈ terms, term.heights.term ≤ most) : (ofTerms terms).heights.term ≤ most := by
  unfold ofTerms
  split
  · simp
  · exact below _ List.mem_cons_self
  · exact term_add_le.mpr fun term member => below term ((arrange_perm _).mem_iff.mp member)

theorem factor_ofFactors_le (coefficient : κ) {operands : List (Expr κ)} {most : Nat}
    (positive : 1 ≤ most) (below : ∀ operand ∈ operands, operand.heights.factor ≤ most) :
    (ofFactors coefficient operands).heights.factor ≤ most := by
  replace below : ∀ operand ∈ arrange operands, operand.heights.factor ≤ most :=
    fun operand member => below operand ((arrange_perm operands).mem_iff.mp member)
  unfold ofFactors
  generalize arrange operands = sorted at below
  split
  · simpa using positive
  split
  · simpa using positive
  · exact below _ List.mem_cons_self
  · exact factor_mul_le.mpr ⟨positive, below⟩
  · exact factor_mul_le.mpr ⟨positive, List.forall_mem_cons.mpr ⟨by simpa using positive, below⟩⟩

theorem factor_pieces_le (expr : Expr κ) :
    ∀ part ∈ pieces expr, part.heights.factor ≤ expr.heights.factor := by
  cases expr with
  | mul operands => exact (factor_mul_le.mp le_rfl).2
  | _ => exact List.forall_mem_singleton.mpr le_rfl

namespace Call

/-- A result that stands no higher than the operands of the call allow. -/
def Keeps : Call κ → Expr κ → Prop
  | sum terms, result => ∀ most, (∀ term ∈ terms, term.heights.term ≤ most) →
    result.heights.term ≤ most
  | product operands, result => ∀ most, 1 ≤ most →
    (∀ operand ∈ operands, operand.heights.factor ≤ most) → result.heights.factor ≤ most
  | power base exponent, result =>
    result.heights.factor ≤ max base.heights.base exponent.heights.term + 1
  | _, _ => True

section

variable {answer : Call κ → Expr κ} (keeps : ∀ call : Call κ, call.Keeps (answer call))

include keeps

theorem keeps_sum (terms : List (Expr κ)) : (sum terms).Keeps ((sum terms).step answer) := by
  intro most below
  refine term_ofTerms_le (List.forall_mem_append.mpr ⟨fun term member => ?_, ?_⟩)
  · obtain ⟨group, among, scaled⟩ := List.mem_filterMap.mp member
    have bound := like_term_le below among
    unfold scaledTerm? at scaled
    split at scaled
    · cases scaled
    split at scaled
    · cases scaled
      exact (term_le_factor _).trans bound
    · cases scaled
      have positive := (one_le_factor group.1).trans bound
      refine (term_le_factor _).trans (keeps (product _) most positive ?_)
      exact List.forall_mem_cons.mpr ⟨by simpa using positive, List.forall_mem_singleton.mpr bound⟩
  · split
    · exact List.forall_mem_nil _
    · exact List.forall_mem_singleton.mpr (by simp)

theorem keeps_product (operands : List (Expr κ)) :
    (product operands).Keeps ((product operands).step answer) := by
  intro most positive below
  simp only [step]
  split
  · simpa using positive
  refine factor_ofFactors_le _ positive fun part member => ?_
  obtain ⟨power, listed, inside⟩ := List.mem_flatMap.mp (List.mem_of_mem_filter member)
  obtain ⟨group, among, rfl⟩ := List.mem_map.mp listed
  obtain ⟨base, exponents⟩ := like_base_lt below among
  have exponent := keeps (sum group.2) (most - 1) fun exponent inside =>
    Nat.le_sub_one_of_lt (exponents exponent inside)
  have raised := keeps (.power group.1 (answer (sum group.2)))
  refine (factor_pieces_le _ part inside).trans (raised.trans ?_)
  omega

theorem keeps_power (base exponent : Expr κ) :
    (power base exponent).Keeps ((power base exponent).step answer) := by
  simp only [Keeps, step]
  split
  · simp
  split
  · have least := base.factor_le_base
    omega
  split
  · simp
  split
  · rename_i inner innerExponent numeric _
    obtain ⟨value, isNumber, _⟩ := Option.bind_eq_some_iff.mp numeric
    obtain rfl := asNumber?_eq_some.mp isNumber
    have exponents := keeps (product [innerExponent, num value]) (innerExponent.heights.term + 1)
      (Nat.succ_pos _)
      (List.forall_mem_cons.mpr ⟨factor_le_term _, List.forall_mem_singleton.mpr (by simp)⟩)
    have raised := keeps (power inner (answer (product [innerExponent, num value])))
    have least := (answer (product [innerExponent, num value])).term_le_factor
    simp only [Keeps] at raised
    rw [heights_pow]
    simp only
    omega
  · rename_i operands numeric _
    obtain ⟨value, isNumber, _⟩ := Option.bind_eq_some_iff.mp numeric
    obtain rfl := asNumber?_eq_some.mp isNumber
    refine keeps (product _) _ (Nat.succ_pos _) (List.forall_mem_map.mpr fun operand member => ?_)
    have below := base_lt_mul member
    have raised := keeps (power operand (num value))
    simp only [Keeps, heights_num] at raised
    simp only [heights_num]
    omega
  · split
    · simp
    · rw [heights_pow]

end

theorem keeps_resultWith (rounds : Nat) (call : Call κ) : call.Keeps (call.resultWith rounds) := by
  induction rounds generalizing call with
  | zero =>
      cases call with
      | sum terms => exact fun _ below => term_add_le.mpr below
      | product operands => exact fun _ positive below => factor_mul_le.mpr ⟨positive, below⟩
      | power base exponent => exact (congrArg Heights.factor (heights_pow base exponent)).le
      | apply | angle | choose => trivial
  | succ rounds ih =>
      rw [resultWith_succ]
      cases call with
      | sum terms => exact keeps_sum ih terms
      | product operands => exact keeps_product ih operands
      | power base exponent => exact keeps_power ih base exponent
      | apply | angle | choose => trivial

/-! ### The depth of calls -/

/-- A bound on how deeply the calls of a call are nested. -/
def effort : Call κ → Nat
  | sum terms => 2 * (terms.map fun term => term.heights.term).foldr max 0 + 2
  | product operands => 2 * (operands.map fun operand => operand.heights.factor).foldr max 0 + 1
  | power base _ => 2 * base.heights.base + 2
  | _ => 1

theorem effort_sum_le {terms : List (Expr κ)} {most : Nat}
    (below : ∀ term ∈ terms, term.heights.term ≤ most) : (sum terms).effort ≤ 2 * most + 2 := by
  have bound := foldr_max_le.mpr (List.forall_mem_map.mpr below)
  simp only [effort]
  omega

theorem effort_product_le {operands : List (Expr κ)} {most : Nat}
    (below : ∀ operand ∈ operands, operand.heights.factor ≤ most) :
    (product operands).effort ≤ 2 * most + 1 := by
  have bound := foldr_max_le.mpr (List.forall_mem_map.mpr below)
  simp only [effort]
  omega

theorem effort_pos (call : Call κ) : 0 < call.effort := by
  cases call <;> exact Nat.succ_pos _

theorem effort_le (call : Call κ) : call.effort ≤ fuelFor (nestingOf call.operands) := by
  have factor {expr : Expr κ} (member : expr ∈ call.operands) :
      expr.heights.factor ≤ 2 * nestingOf call.operands + 1 := by
    have nested := nesting_le_nestingOf member
    have bound := expr.heights_le_nesting.1
    omega
  unfold fuelFor
  cases call with
  | sum terms =>
      have bound := effort_sum_le fun term member => (term_le_factor term).trans (factor member)
      simp only [operands] at bound ⊢
      omega
  | product operands =>
      have bound := effort_product_le fun operand member => factor member
      simp only [Call.operands] at bound ⊢
      omega
  | power base exponent =>
      have nested : base.nesting ≤ nestingOf [base, exponent] :=
        nesting_le_nestingOf List.mem_cons_self
      have bound := base.heights_le_nesting.2
      simp only [effort, operands]
      omega
  | apply | angle | choose =>
      simp only [effort]
      omega

section

variable {answer : Call κ → Expr κ}

theorem sum_asks_less (terms : List (Expr κ)) :
    ∀ asked ∈ (sum terms).asks answer, asked.effort < (sum terms).effort := by
  intro asked member
  obtain ⟨group, among, made⟩ := List.mem_filterMap.mp member
  split at made
  · cases made
  cases made
  have below : ∀ term ∈ terms,
      term.heights.term ≤ (terms.map fun term => term.heights.term).foldr max 0 :=
    List.forall_mem_map.mp (foldr_max_le.mp le_rfl)
  have bound := like_term_le below among
  have positive := (one_le_factor group.1).trans bound
  refine lt_of_le_of_lt (effort_product_le (List.forall_mem_cons.mpr
    ⟨?_, List.forall_mem_singleton.mpr bound⟩)) (Nat.lt_succ_self _)
  simpa using positive

theorem product_asks_less (operands : List (Expr κ)) :
    ∀ asked ∈ (product operands).asks answer, asked.effort < (product operands).effort := by
  intro asked member
  simp only [asks] at member
  split at member
  · cases member
  obtain ⟨group, among, inside⟩ := List.mem_flatMap.mp member
  have below : ∀ operand ∈ operands, operand.heights.factor ≤
      (operands.map fun operand => operand.heights.factor).foldr max 0 :=
    List.forall_mem_map.mp (foldr_max_le.mp le_rfl)
  obtain ⟨base, exponents⟩ := like_base_lt below among
  rcases List.mem_cons.mp inside with rfl | last
  · have smaller := effort_sum_le fun exponent inside =>
      Nat.le_sub_one_of_lt (exponents exponent inside)
    simp only [effort] at smaller ⊢
    omega
  · obtain rfl := List.mem_singleton.mp last
    simp only [effort]
    omega

theorem power_asks_less (keeps : ∀ call : Call κ, call.Keeps (answer call)) (base exponent : Expr κ) :
    ∀ asked ∈ (power base exponent).asks answer,
      asked.effort < (power base exponent).effort := by
  intro asked member
  simp only [asks] at member
  split at member
  · cases member
  split at member
  · rename_i inner innerExponent numeric _
    obtain ⟨value, isNumber, _⟩ := Option.bind_eq_some_iff.mp numeric
    obtain rfl := asNumber?_eq_some.mp isNumber
    have stands : (pow inner innerExponent).heights.base =
        max inner.heights.base (innerExponent.heights.term + 1) + 1 := by rw [heights_pow]
    rcases List.mem_cons.mp member with rfl | last
    · have factors : ∀ operand ∈ [innerExponent, num value],
          operand.heights.factor ≤ innerExponent.heights.term + 1 :=
        List.forall_mem_cons.mpr ⟨factor_le_term _, List.forall_mem_singleton.mpr (by simp)⟩
      refine (effort_product_le factors).trans_lt ?_
      simp only [effort]
      omega
    · obtain rfl := List.mem_singleton.mp last
      simp only [effort]
      omega
  · rename_i operands numeric _
    obtain ⟨value, isNumber, _⟩ := Option.bind_eq_some_iff.mp numeric
    obtain rfl := asNumber?_eq_some.mp isNumber
    rcases List.mem_append.mp member with first | last
    · obtain ⟨operand, among, rfl⟩ := List.mem_map.mp first
      have lower := base_lt_mul among
      simp only [effort]
      omega
    · obtain rfl := List.mem_singleton.mp last
      have powers : ∀ operand ∈ operands, (answer (power operand (num value))).heights.factor ≤
          (mul operands).heights.base := by
        intro operand among
        have lower := base_lt_mul among
        have raised := keeps (power operand (num value))
        simp only [Keeps, heights_num] at raised
        omega
      exact (effort_product_le (List.forall_mem_map.mpr powers)).trans_lt (Nat.lt_succ_self _)
  · cases member

theorem effort_lt (keeps : ∀ call : Call κ, call.Keeps (answer call)) (call : Call κ) :
    ∀ asked ∈ call.asks answer, asked.effort < call.effort := by
  cases call with
  | sum terms => exact sum_asks_less terms
  | product operands => exact product_asks_less operands
  | power base exponent => exact power_asks_less keeps base exponent
  | apply | angle | choose => exact List.forall_mem_nil _

end

end Call

/-! ### Computations end -/

theorem endsWithin_resultWith {rounds : Nat} {call : Call κ} (enough : call.effort ≤ rounds) :
    EndsWithin rounds call (call.resultWith rounds) := by
  induction rounds generalizing call with
  | zero => exact absurd enough (Nat.not_le_of_lt call.effort_pos)
  | succ rounds ih =>
      rw [Call.resultWith_succ]
      refine .intro _ fun asked member => ih ?_
      have less := Call.effort_lt (Call.keeps_resultWith rounds) call asked member
      omega

theorem Call.resultWith_eq {rounds more : Nat} {call : Call κ} (enough : call.effort ≤ rounds)
    (also : call.effort ≤ more) : call.resultWith rounds = call.resultWith more := by
  induction rounds generalizing call more with
  | zero => exact absurd enough (Nat.not_le_of_lt call.effort_pos)
  | succ rounds ih =>
      cases more with
      | zero => exact absurd also (Nat.not_le_of_lt call.effort_pos)
      | succ more =>
          rw [resultWith_succ, resultWith_succ]
          refine (step_congr fun asked member => ih ?_ ?_).2
          all_goals
            have less := effort_lt (keeps_resultWith rounds) call asked member
            omega

/-- The constructors without any count of rounds: a call comes to what the results of its own calls
make of it. -/
theorem Call.result_step (call : Call κ) : call.result = call.step result := by
  have enough := call.effort_le
  rw [result_eq, resultWith_eq enough (enough.trans (Nat.le_succ _)), resultWith_succ]
  refine (step_congr fun asked member => ?_).2
  have less := effort_lt (keeps_resultWith _) call asked member
  rw [result_eq asked, resultWith_eq (less.le.trans enough) asked.effort_le]

theorem endsWithin_result (call : Call κ) :
    EndsWithin (4 * nestingOf call.operands + 16) call call.result := by
  rw [Call.result_eq]
  exact endsWithin_resultWith call.effort_le

/-- What holds of a call if it holds of the calls that it makes, holds of every call. -/
theorem Call.result_induction {motive : Call κ → Expr κ → Prop}
    (step : ∀ (answer : Call κ → Expr κ) (call : Call κ),
      (∀ asked ∈ call.asks answer, motive asked (answer asked)) → motive call (call.step answer))
    (call : Call κ) : motive call call.result := by
  have holds {depth : Nat} {call : Call κ} {result : Expr κ}
      (ends : EndsWithin depth call result) : motive call result := by
    induction ends with
    | intro answer _ ih => exact step answer _ ih
  exact holds (endsWithin_result call)

/-- Every call of a constructor ends, no deeper than the nesting of its operands allows, and all its
computations come to its result. -/
theorem construction_ends (call : Call κ) :
    EndsWithin (4 * nestingOf call.operands + 16) call call.result ∧
      ∀ depth other, EndsWithin depth call other → other = call.result := by
  refine ⟨endsWithin_result call, fun depth other ends => ?_⟩
  induction ends with
  | intro answer _ ih =>
      rw [Call.result_step]
      exact (Call.step_congr ih).2

end Mechanism.Expr
