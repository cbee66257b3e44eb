import Mechanism.Proofs.Expr.Settled

/-!
Why the constructors give a canonical node back when they are called on its operands: nothing in it is
collected, folded or moved. The calls are counted down from enough for all exponents below.
-/

namespace Mechanism

namespace Expr

variable {κ : Type} [Scalar κ]

/-- Zero and one leave the other numbers as they are, to the last bit. -/
class Neutral (κ : Type) [Scalar κ] : Prop where
  isZero_zero : Scalar.isZero (0 : κ) = true
  isZero_one : Scalar.isZero (1 : κ) = false
  isOne_one : Scalar.isOne (1 : κ) = true
  whole_of_isOne : ∀ value : κ, Scalar.isOne value = true → Scalar.wholeExponent? value ≠ none
  zero_add : ∀ value : κ, Scalar.unsigned value = value → 0 + value = value
  one_mul : ∀ value : κ, 1 * value = value

noncomputable instance : Neutral RealNumber where
  isZero_zero := by simp [Scalar.isZero, Exact.isEqual_iff]
  isZero_one := by
    rw [← Bool.not_eq_true, isZero_iff, Exact.real_one]
    exact one_ne_zero
  isOne_one := by simp [Scalar.isOne, Exact.isEqual_iff]
  whole_of_isOne value isOne := by
    have same : value.value = 1 := (Exact.isEqual_iff value 1).mp isOne
    simp [Scalar.wholeExponent?, same]
  zero_add value _ := congrArg RealNumber.mk (AddZeroClass.zero_add value.value)
  one_mul value := congrArg RealNumber.mk (MulOneClass.one_mul value.value)

theorem powerWith_settled (fuel : Nat) {base exponent : Expr κ}
    (settled : SettledPower base exponent) : powerWith (fuel + 1) base exponent = pow base exponent := by
  unfold powerWith
  rw [settled.exponentZero, settled.exponentOne, settled.unfolded, settled.notOne]
  simp only [Bool.false_eq_true, ↓reduceIte]
  split
  · rename_i whole
    exact nomatch (settled.kept (Or.inl rfl)).symm.trans whole
  · rename_i whole
    exact nomatch (settled.kept (Or.inr rfl)).symm.trans whole
  · rfl

variable [Neutral κ]

theorem canonical_one : (one : Expr κ).Canonical :=
  canonical_leaf (unsigned_of_nonzero Neutral.isZero_one) rfl

theorem sumWith_number (fuel : Nat) {value : κ} (settled : Scalar.unsigned value = value) :
    sumWith (fuel + 1) [num value] = num value := by
  have constant : (numbersIn (addendsOf [(num value : Expr κ)])).foldl (· + ·) 0 = value :=
    Neutral.zero_add value settled
  have nothing : likeTerms (symbolicIn (addendsOf [(num value : Expr κ)])) = [] := rfl
  rw [sumWith]
  simp only [constant, nothing, List.filterMap_nil, List.nil_append]
  cases zero : Scalar.isZero value with
  | true =>
      have same : (0 : κ) = value := by rwa [Scalar.unsigned, if_pos zero] at settled
      rw [if_pos rfl, ← same]
      rfl
  | false =>
      rw [if_neg Bool.false_ne_true, number_of_nonzero zero]
      rfl

theorem powerWith_one (fuel : Nat) (base : Expr κ) : powerWith (fuel + 1) base one = base := by
  have noZero : (one : Expr κ).isZero = false := Neutral.isZero_one
  have isOne : (one : Expr κ).isOne = true := Neutral.isOne_one
  unfold powerWith
  rw [noZero, isOne, if_neg Bool.false_ne_true, if_pos rfl]

theorem powerWith_leaf (fuel : Nat) {leaf : Expr κ} (canonical : leaf.Canonical) :
    powerWith (fuel + 1) leaf.baseAndExponent.1 leaf.baseAndExponent.2 = leaf := by
  cases leaf with
  | pow base exponent => exact powerWith_settled fuel canonical.settled
  | _ => exact powerWith_one fuel _

def Steady (fuel : Nat) (expr : Expr κ) : Prop := sumWith fuel [expr] = expr

theorem steady_exponent {fuel : Nat} {leaf : Expr κ} (canonical : leaf.Canonical)
    (enough : leaf.nesting < fuel)
    (steady : ∀ expr : Expr κ, expr.Canonical → expr.nesting < leaf.nesting → Steady fuel expr) :
    Steady fuel leaf.baseAndExponent.2 := by
  obtain ⟨fuel, rfl⟩ : ∃ less, fuel = less + 1 := ⟨fuel - 1, by omega⟩
  cases leaf with
  | pow base exponent =>
      exact steady exponent (canonical.child (by simp [children])) (nesting_exponent_lt base exponent)
  | _ => exact sumWith_number fuel (unsigned_of_nonzero Neutral.isZero_one)

theorem productWith_unlike {fuel : Nat} {operands leaves : List (Expr κ)}
    (leaves_eq : symbolicIn (factorsOf operands) = leaves)
    (canonical : ∀ leaf ∈ leaves, leaf.Canonical ∧ leaf.label ≠ .mul)
    (unlike : (leaves.map fun leaf => leaf.baseAndExponent.1).Nodup)
    (steady : ∀ leaf ∈ leaves, Steady (fuel + 1) leaf.baseAndExponent.2) :
    productWith (fuel + 2) operands =
      ofFactors ((numbersIn (factorsOf operands)).foldl (· * ·) 1) leaves := by
  have symbolic : ∀ leaf ∈ leaves, leaf.asNumber? = none :=
    fun leaf member => asNumber?_of_symbolic (leaves_eq ▸ member)
  have powers : ((likeBases leaves).map fun group =>
      powerWith (fuel + 1) group.1 (sumWith (fuel + 1) group.2)) = leaves := by
    rw [likeBases, Grouping.ofPairs_apart (by simpa [Function.comp_def] using unlike), List.map_map,
      List.map_map]
    refine (List.map_congr_left fun leaf member => ?_).trans (List.map_id leaves)
    simp only [Function.comp_apply]
    rw [steady leaf member, powerWith_leaf fuel (canonical leaf member).1, id]
  have parts : leaves.flatMap pieces = leaves := by
    rw [List.flatMap_congr fun leaf member => pieces_eq_self (canonical leaf member).2,
      List.flatMap_singleton']
  rw [productWith]
  simp only [leaves_eq, powers, parts, numbersIn_eq_nil symbolic, symbolicIn_eq_self symbolic,
    List.foldl_nil]
  rw [ofFactors]
  split <;> rfl

theorem Unscaled.productWith_number {rest : Expr κ} (unscaled : rest.Unscaled) {coefficient : κ}
    (nonzero : Scalar.isZero coefficient = false) (notOne : Scalar.isOne coefficient = false)
    {fuel : Nat} (steady : ∀ leaf ∈ rest.factors, Steady (fuel + 1) leaf.baseAndExponent.2) :
    productWith (fuel + 2) [number coefficient, rest] = scaledBy coefficient rest := by
  have leaves : factorsOf [number coefficient, rest] = num coefficient :: rest.factors := by
    rw [number_of_nonzero nonzero, factorsOf, factorsOf, factorsOf, List.append_nil]
    rfl
  have symbolic : symbolicIn (factorsOf [number coefficient, rest]) = rest.factors := by
    rw [leaves, symbolicIn_num, symbolicIn_eq_self unscaled.symbolic]
  have numbers : (numbersIn (factorsOf [number coefficient, rest])).foldl (· * ·) 1 = coefficient := by
    rw [leaves, numbersIn_num, numbersIn_eq_nil unscaled.symbolic]
    exact Neutral.one_mul coefficient
  rw [productWith_unlike symbolic unscaled.canonical.factors unscaled.unlike_factors steady, numbers,
    ofFactors, nonzero, notOne, if_neg Bool.false_ne_true, arrange,
    Ordering.Sorted.sort_eq unscaled.sorted_factors, number_of_nonzero nonzero, scaledBy]
  obtain ⟨head, tail, found⟩ := List.exists_cons_of_ne_nil unscaled.factors_ne_nil
  rw [found]
  cases tail <;> rfl

/-- What becomes of a term without coefficient that occurs with coefficients of the given sum. -/
def scaled? (group : Expr κ × κ) : Option (Expr κ) :=
  if Scalar.isZero group.2 then none
  else if Scalar.isOne group.2 then some group.1
  else some (scaledBy group.2 group.1)

def constantIn (leaves : List (Expr κ)) : List (Expr κ) :=
  if Scalar.isZero ((numbersIn leaves).foldl (· + ·) 0) then []
  else [number ((numbersIn leaves).foldl (· + ·) 0)]

def collectedIn (leaves : List (Expr κ)) : List (Expr κ) :=
  (likeTerms (symbolicIn leaves)).filterMap scaled?

def SteadyTerms (fuel : Nat) (terms : List (Expr κ)) : Prop :=
  ∀ term ∈ terms, ∀ leaf ∈ term.splitCoefficient.2.factors, Steady fuel leaf.baseAndExponent.2

theorem sumWith_canonical {fuel : Nat} {terms : List (Expr κ)}
    (canonical : ∀ leaf ∈ addendsOf terms, leaf.Canonical)
    (steady : SteadyTerms (fuel + 1) (symbolicIn (addendsOf terms))) :
    sumWith (fuel + 3) terms =
      ofTerms (collectedIn (addendsOf terms) ++ constantIn (addendsOf terms)) := by
  have scaled : (likeTerms (symbolicIn (addendsOf terms))).filterMap
      (scaledTerm? (productWith (fuel + 2))) = collectedIn (addendsOf terms) := by
    refine List.filterMap_congr fun group member => ?_
    obtain ⟨term, among, same⟩ := mem_likeTerms member
    have unscaled := (scaled_of_canonical (canonical term (List.mem_filter.mp among).1)
      (asNumber?_of_symbolic among)).unscaled
    have exponents := steady term among
    rw [same] at unscaled exponents
    rw [scaledTerm?, scaled?]
    cases zero : Scalar.isZero group.2 with
    | true => rfl
    | false =>
        cases isOne : Scalar.isOne group.2 with
        | true => rfl
        | false =>
            simp only [Bool.false_eq_true, ↓reduceIte]
            rw [unscaled.productWith_number zero isOne exponents]
  rw [sumWith]
  simp only [scaled]
  rfl

theorem collectedIn_unlike {leaves : List (Expr κ)} (canonical : ∀ leaf ∈ leaves, leaf.Canonical)
    (unlike : ((symbolicIn leaves).map fun leaf => leaf.splitCoefficient.2).Nodup) :
    collectedIn leaves = symbolicIn leaves := by
  have like : likeTerms (symbolicIn leaves) = (symbolicIn leaves).map fun leaf =>
      (leaf.splitCoefficient.2, 0 + leaf.splitCoefficient.1) := by
    rw [likeTerms]
    simp only
    rw [Grouping.ofPairs_apart (by simpa [Function.comp_def] using unlike)]
    simp only [List.map_map, Function.comp_def, List.foldl_cons, List.foldl_nil]
  rw [collectedIn, like, List.filterMap_map]
  refine (List.filterMap_congr fun leaf member => ?_).trans (List.filterMap_some)
  have scaled := scaled_of_canonical (canonical leaf (List.mem_filter.mp member).1)
    (asNumber?_of_symbolic member)
  simp only [Function.comp_apply, scaled?]
  generalize leaf.splitCoefficient.1 = coefficient at scaled
  generalize leaf.splitCoefficient.2 = rest at scaled
  cases scaled with
  | alone unscaled =>
      rw [Neutral.zero_add 1 (unsigned_of_nonzero Neutral.isZero_one), Neutral.isZero_one,
        Neutral.isOne_one]
      rfl
  | times unscaled nonzero notOne =>
      rw [Neutral.zero_add coefficient (unsigned_of_nonzero nonzero), nonzero, notOne]
      rfl

theorem SettledSum.ofTerms_eq {terms : List (Expr κ)} (settled : SettledSum terms)
    (canonical : ∀ term ∈ terms, term.Canonical) :
    ofTerms (collectedIn terms ++ constantIn terms) = add terms := by
  have symbols : ∀ term ∈ symbolicIn terms, term.asNumber? = none :=
    fun term member => asNumber?_of_symbolic member
  have parts := sorted_eq_append settled.ordered settled.single
  have several := settled.several
  have ordered := settled.ordered
  rw [collectedIn_unlike canonical settled.unlike, constantIn]
  cases numbers : numbersIn terms with
  | nil =>
      rw [numbers] at parts
      rw [List.foldl_nil, Neutral.isZero_zero, if_pos rfl, List.append_nil]
      have same : symbolicIn terms = terms := parts.symm
      rw [same]
      match terms, several with
      | first :: second :: rest, _ =>
          rw [ofTerms, arrange, Ordering.Sorted.sort_eq ordered]
          all_goals simp
  | cons value others =>
      obtain rfl : others = [] := by
        have single := settled.single
        rw [numbers] at single
        exact List.eq_nil_of_length_eq_zero (Nat.le_zero.mp (Nat.le_of_succ_le_succ single))
      have nonzero := settled.nonzero value (numbers ▸ List.mem_cons_self)
      rw [numbers] at parts
      have whole : terms = num value :: symbolicIn terms := parts
      rw [List.foldl_cons, List.foldl_nil, Neutral.zero_add value (unsigned_of_nonzero nonzero),
        nonzero, if_neg Bool.false_ne_true, number_of_nonzero nonzero]
      generalize symbolicIn terms = rest at whole symbols
      subst whole
      have sorted : Sorted rest := (List.pairwise_cons.mp ordered).2
      rw [← arrange_append_number sorted symbols]
      match rest, several with
      | first :: others, _ =>
          cases others <;> rfl

theorem constantIn_symbolic {leaves : List (Expr κ)}
    (symbolic : ∀ leaf ∈ leaves, leaf.asNumber? = none) : constantIn leaves = [] := by
  rw [constantIn, numbersIn_eq_nil symbolic, List.foldl_nil, Neutral.isZero_zero, if_pos rfl]

theorem steady_of_flat {fuel : Nat} {expr : Expr κ} (canonical : expr.Canonical)
    (symbolic : expr.asNumber? = none) (flat : expr.label ≠ .add)
    (steady : SteadyTerms (fuel + 1) (symbolicIn [expr])) : Steady (fuel + 3) expr := by
  have leaves : addendsOf [expr] = [expr] := addendsOf_eq_self (by simpa using flat)
  have single : symbolicIn [expr] = [expr] := symbolicIn_eq_self (by simpa using symbolic)
  have inside : ∀ leaf ∈ [expr], leaf.Canonical := by simpa using canonical
  rw [Steady, sumWith_canonical (by rwa [leaves]) (by rwa [leaves]), leaves,
    collectedIn_unlike inside (by rw [single]; exact List.nodup_singleton _),
    constantIn_symbolic (by simpa using symbolic), single]
  rfl

theorem steady {expr : Expr κ} (canonical : expr.Canonical) {fuel : Nat}
    (enough : 2 * expr.nesting + 3 ≤ fuel) : Steady fuel expr := by
  induction measure : expr.nesting using Nat.strong_induction_on generalizing expr fuel with
  | _ nesting ih =>
      subst measure
      obtain ⟨fuel, rfl⟩ : ∃ less, fuel = less + 3 := ⟨fuel - 3, by omega⟩
      have exponents (leaf : Expr κ) (leafCanonical : leaf.Canonical)
          (below : leaf.nesting ≤ expr.nesting) : Steady (fuel + 1) leaf.baseAndExponent.2 := by
        refine steady_exponent leafCanonical (by omega) fun other otherCanonical less => ?_
        exact ih other.nesting (less.trans_le below) otherCanonical (by omega) rfl
      have terms (leaves : List (Expr κ)) (inside : ∀ leaf ∈ leaves, leaf.Canonical)
          (below : ∀ leaf ∈ leaves, leaf.nesting ≤ expr.nesting) :
          SteadyTerms (fuel + 1) (symbolicIn leaves) := by
        intro term member leaf among
        have here := (List.mem_filter.mp member).1
        have scaled := scaled_of_canonical (inside term here) (asNumber?_of_symbolic member)
        exact exponents leaf (scaled.unscaled.canonical.factors leaf among).1
          ((scaled.nesting_le (inside term here) among).trans (below term here))
      cases expr with
      | num value => exact sumWith_number _ canonical.settled
      | add operands =>
          have settled : SettledSum operands := canonical.settled
          have leaves : addendsOf [add operands] = operands := by
            rw [addendsOf, addends, addendsOf_eq_self settled.flat]
            exact List.append_nil _
          have inside : ∀ leaf ∈ operands, leaf.Canonical := fun leaf member => canonical.child member
          rw [Steady, sumWith_canonical (by rwa [leaves]), leaves, settled.ofTerms_eq inside]
          rw [leaves]
          exact terms operands inside fun leaf member => (nesting_lt_add member).le
      | _ =>
          refine steady_of_flat canonical rfl (fun same => by cases same) (terms _ ?_ ?_)
          · exact List.forall_mem_singleton.mpr canonical
          · exact List.forall_mem_singleton.mpr le_rfl

theorem steady_leaf {leaf : Expr κ} (canonical : leaf.Canonical) {fuel : Nat}
    (enough : 2 * leaf.nesting + 1 ≤ fuel) : Steady fuel leaf.baseAndExponent.2 :=
  steady_exponent canonical (by omega) fun _ otherCanonical less => steady otherCanonical (by omega)

theorem steadyTerms {terms : List (Expr κ)} (canonical : ∀ term ∈ terms, term.Canonical) {fuel : Nat}
    (enough : 2 * nestingOf terms + 1 ≤ fuel) :
    SteadyTerms fuel (symbolicIn (addendsOf terms)) := by
  intro term member leaf among
  have here := (List.mem_filter.mp member).1
  have termCanonical := (canonical_addendsOf canonical term here).1
  have scaled := scaled_of_canonical termCanonical (asNumber?_of_symbolic member)
  have below := (scaled.nesting_le termCanonical among).trans (nesting_addends_le canonical here)
  exact steady_leaf (scaled.unscaled.canonical.factors leaf among).1 (by omega)

theorem sum_canonical {terms : List (Expr κ)} (canonical : ∀ term ∈ terms, term.Canonical) :
    sum terms = ofTerms (collectedIn (addendsOf terms) ++ constantIn (addendsOf terms)) :=
  sumWith_canonical (fun leaf member => (canonical_addendsOf canonical leaf member).1)
    (steadyTerms canonical (by omega))

theorem product_unlike {operands : List (Expr κ)}
    (canonical : ∀ operand ∈ operands, operand.Canonical)
    (unlike : ((symbolicIn (factorsOf operands)).map fun leaf => leaf.baseAndExponent.1).Nodup) :
    product operands = ofFactors ((numbersIn (factorsOf operands)).foldl (· * ·) 1)
      (symbolicIn (factorsOf operands)) := by
  refine productWith_unlike rfl (fun leaf member => ?_) unlike fun leaf member => ?_
  · exact canonical_factorsOf canonical leaf (List.mem_filter.mp member).1
  · have here := (List.mem_filter.mp member).1
    have below := nesting_factorsOf_le canonical here
    exact steady_leaf (canonical_factorsOf canonical leaf here).1 (by omega)

theorem SettledProduct.ofFactors_eq {operands : List (Expr κ)} (settled : SettledProduct operands) :
    ofFactors ((numbersIn operands).foldl (· * ·) 1) (symbolicIn operands) = mul operands := by
  have parts := sorted_eq_append settled.ordered settled.single
  have ordered := settled.ordered
  have several := settled.several
  cases numbers : numbersIn operands with
  | nil =>
      rw [numbers] at parts
      have same : symbolicIn operands = operands := parts.symm
      rw [same, List.foldl_nil, ofFactors, Neutral.isZero_one, Neutral.isOne_one,
        if_neg Bool.false_ne_true, arrange, Ordering.Sorted.sort_eq ordered]
      rcases operands with _ | ⟨_, _ | ⟨_, _⟩⟩
      · exact absurd several (by simp)
      · exact absurd several (by simp)
      · rfl
  | cons value others =>
      obtain rfl : others = [] := by
        have single := settled.single
        rw [numbers] at single
        exact List.eq_nil_of_length_eq_zero (Nat.le_zero.mp (Nat.le_of_succ_le_succ single))
      obtain ⟨nonzero, notOne⟩ := settled.proper value (numbers ▸ List.mem_cons_self)
      rw [numbers] at parts
      have whole : operands = num value :: symbolicIn operands := parts
      generalize symbolicIn operands = rest at whole
      subst whole
      have sorted : Sorted rest := (List.pairwise_cons.mp ordered).2
      rw [List.foldl_cons, List.foldl_nil, Neutral.one_mul, ofFactors, nonzero, notOne,
        if_neg Bool.false_ne_true, arrange, Ordering.Sorted.sort_eq sorted, number_of_nonzero nonzero]
      rcases rest with _ | ⟨_, _ | ⟨_, _⟩⟩
      · exact absurd several (by simp)
      · rfl
      · rfl

theorem Canonical.rebuild_eq {expr : Expr κ} (canonical : expr.Canonical) :
    expr.rebuild expr.children = expr := by
  cases expr with
  | num | atom => rfl
  | add terms =>
      have settled : SettledSum terms := canonical.settled
      have inside : ∀ term ∈ terms, term.Canonical := fun term member => canonical.child member
      change sum terms = _
      rw [sum_canonical inside, addendsOf_eq_self settled.flat, settled.ofTerms_eq inside]
  | mul operands =>
      have settled : SettledProduct operands := canonical.settled
      have inside : ∀ operand ∈ operands, operand.Canonical := fun operand member =>
        canonical.child member
      have leaves : factorsOf operands = operands := factorsOf_eq_self settled.flat
      change product operands = _
      rw [product_unlike inside (by rw [leaves]; exact settled.unlike), leaves, settled.ofFactors_eq]
  | pow base exponent => exact powerWith_settled _ canonical.settled
  | call function argument =>
      have settled : argument.asNumber?.bind (fun value =>
        (Scalar.apply function value).filter Scalar.isFinite) = none := canonical.settled
      change apply function argument = _
      rw [apply, settled]
  | angle y x =>
      have settled : y.asNumber? = none ∨ x.asNumber? = none := canonical.settled
      change angleOf y x = _
      unfold angleOf
      split
      · rcases settled with none | none <;> cases none
      · rfl
  | cond relation left right chosen otherwise =>
      obtain ⟨symbolic, unlike⟩ : (left.asNumber? = none ∨ right.asNumber? = none) ∧
        chosen ≠ otherwise := canonical.settled
      change choose relation left right chosen otherwise = _
      unfold choose
      split
      · rcases symbolic with none | none <;> cases none
      · rw [if_neg (by simpa using unlike)]

end Expr

end Mechanism
