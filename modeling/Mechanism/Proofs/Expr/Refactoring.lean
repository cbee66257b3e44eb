import Mathlib.Algebra.BigOperators.Group.List.Basic
import Mechanism.Proofs.Expr.Regrouping

/-!
Products that are written in different ways. What a product comes to is given by the numbers in it and
by the sum of the exponents of each base. A product that is an operand of a product can be written out,
if it passes on the exponents of all bases that come up again.
-/

namespace Mechanism

theorem Grouping.valuesOf_map_pair {α β : Type} [BEq α] [LawfulBEq α] [DecidableEq α] {keys : List α}
    (unique : keys.Nodup) (value : α → β) (key : α) :
    valuesOf key (keys.map fun key => (key, value key)) = if key ∈ keys then [value key] else [] := by
  have same : (keys.map fun key => (key, value key)).map Prod.fst = keys := by
    rw [List.map_map]
    exact List.map_id keys
  split
  · rename_i known
    exact valuesOf_apart (same.symm ▸ unique) (List.mem_map_of_mem known)
  · rename_i absent
    exact valuesOf_eq_nil (same.symm ▸ absent)

namespace Expr

variable {κ : Type} [Scalar κ]

/-! ### Bases and exponents -/

def basesIn (leaves : List (Expr κ)) : List (Expr κ) :=
  Grouping.distinct ((symbolicIn leaves).map fun leaf => leaf.baseAndExponent.1)

def exponentsOf (base : Expr κ) (leaves : List (Expr κ)) : List (Expr κ) :=
  Grouping.valuesOf base ((symbolicIn leaves).map baseAndExponent)

def raised (leaves : List (Expr κ)) (base : Expr κ) : Expr κ :=
  power base (sum (exponentsOf base leaves))

theorem likeBases_eq (leaves : List (Expr κ)) :
    likeBases (symbolicIn leaves) =
      (basesIn leaves).map fun base => (base, exponentsOf base leaves) := by
  rw [likeBases, Grouping.ofPairs_eq, List.map_map]
  rfl

theorem mem_basesIn {leaves : List (Expr κ)} {base : Expr κ} :
    base ∈ basesIn leaves ↔ ∃ leaf ∈ symbolicIn leaves, leaf.baseAndExponent.1 = base := by
  rw [basesIn, Grouping.mem_distinct, List.mem_map]

theorem nodup_basesIn (leaves : List (Expr κ)) : (basesIn leaves).Nodup := Grouping.nodup_distinct _

theorem exponentsOf_append (base : Expr κ) (left right : List (Expr κ)) :
    exponentsOf base (left ++ right) = exponentsOf base left ++ exponentsOf base right := by
  rw [exponentsOf, symbolicIn_append, List.map_append, Grouping.valuesOf_append]
  rfl

theorem exponentsOf_perm (base : Expr κ) {left right : List (Expr κ)} (perm : left.Perm right) :
    (exponentsOf base left).Perm (exponentsOf base right) :=
  ((symbolicIn_perm perm).map baseAndExponent).filterMap _

theorem basesIn_perm {left right : List (Expr κ)} (perm : left.Perm right) :
    (basesIn left).Perm (basesIn right) := by
  refine (List.perm_ext_iff_of_nodup (nodup_basesIn left) (nodup_basesIn right)).mpr fun base => ?_
  rw [mem_basesIn, mem_basesIn]
  simp only [(symbolicIn_perm perm).mem_iff]

theorem exponentsOf_absent {leaves : List (Expr κ)} {base : Expr κ}
    (absent : base ∉ basesIn leaves) : exponentsOf base leaves = [] := by
  refine Grouping.valuesOf_eq_nil fun member => absent (mem_basesIn.mpr ?_)
  rw [List.map_map, List.mem_map] at member
  exact member

theorem mem_basesIn_iff {leaves : List (Expr κ)} {base : Expr κ} :
    base ∈ basesIn leaves ↔ exponentsOf base leaves ≠ [] := by
  refine ⟨fun known empty => ?_, fun some => ?_⟩
  · obtain ⟨leaf, among, rfl⟩ := mem_basesIn.mp known
    have member : leaf.baseAndExponent.2 ∈ exponentsOf leaf.baseAndExponent.1 leaves :=
      Grouping.mem_valuesOf.mpr (List.mem_map_of_mem among)
    rw [empty] at member
    cases member
  · by_contra absent
    exact some (exponentsOf_absent absent)

theorem exponentsOf_canonical {leaves : List (Expr κ)} (base : Expr κ)
    [Neutral κ] (canonical : ∀ leaf ∈ leaves, leaf.Canonical) :
    ∀ exponent ∈ exponentsOf base leaves, exponent.Canonical := by
  intro exponent member
  obtain ⟨leaf, among, _, rfl⟩ := mem_exponents member
  exact (canonical leaf (List.mem_filter.mp among).1).exponent

theorem nestingOf_exponentsOf {operands : List (Expr κ)}
    (canonical : ∀ operand ∈ operands, operand.Canonical) (base : Expr κ) :
    nestingOf (exponentsOf base (factorsOf operands)) ≤ nestingOf operands := by
  refine nestingOf_le fun exponent member => ?_
  obtain ⟨leaf, among, _, rfl⟩ := mem_exponents member
  exact (nesting_exponent_le leaf).trans
    (nesting_factorsOf_le canonical (List.mem_filter.mp among).1)

section

variable [Unrounded κ]

/-! ### Products of numbers -/

local instance : CommMonoid κ where
  mul_assoc := Unrounded.mul_assoc
  one_mul := Neutral.one_mul
  mul_one value := (Unrounded.mul_comm value 1).trans (Neutral.one_mul value)
  mul_comm := Unrounded.mul_comm

/-- The number that an expression is, and one if it is no number. -/
def numeral (expr : Expr κ) : κ := expr.asNumber?.getD 1

omit [Unrounded κ] in
theorem numeral_symbolic {expr : Expr κ} (symbolic : expr.asNumber? = none) : numeral expr = 1 := by
  rw [numeral, symbolic, Option.getD_none]

theorem foldl_numbersIn (exprs : List (Expr κ)) (start : κ) :
    (numbersIn exprs).foldl (· * ·) start = start * (exprs.map numeral).prod := by
  induction exprs generalizing start with
  | nil => exact (mul_one start).symm
  | cons head tail ih =>
      cases number : head.asNumber? with
      | none =>
          have skipped : numbersIn (head :: tail) = numbersIn tail :=
            List.filterMap_cons_none number
          rw [skipped, ih, List.map_cons, List.prod_cons, numeral_symbolic number, one_mul]
      | some value =>
          obtain rfl := asNumber?_eq_some.mp number
          rw [numbersIn_num, List.foldl_cons, ih, List.map_cons, List.prod_cons, mul_assoc]
          rfl

theorem isZero_prod {values : List κ} :
    Scalar.isZero values.prod = true ↔ ∃ value ∈ values, Scalar.isZero value = true := by
  induction values with
  | nil =>
      rw [List.prod_nil, show Scalar.isZero (1 : κ) = false from Neutral.isZero_one]
      simp
  | cons head tail ih =>
      rw [List.prod_cons, show Scalar.isZero (head * tail.prod) = _ from Unrounded.isZero_mul _ _,
        Bool.or_eq_true, ih, List.exists_mem_cons_iff]

/-! ### What a product comes to -/

theorem sum_nil : sum ([] : List (Expr κ)) = zero := by
  rw [sum, fuelFor, sumWith]
  change ofTerms ([] ++ if Scalar.isZero (0 : κ) then [] else _) = _
  rw [Neutral.isZero_zero, if_pos rfl]
  rfl

omit [Unrounded κ] in
theorem power_isZero (base : Expr κ) {exponent : Expr κ} (vanishes : exponent.isZero = true) :
    power base exponent = one := by
  rw [power, fuelFor]
  unfold powerWith
  rw [vanishes, if_pos rfl]

theorem raised_absent {leaves : List (Expr κ)} {base : Expr κ} (absent : base ∉ basesIn leaves) :
    raised leaves base = one := by
  rw [raised, exponentsOf_absent absent, sum_nil]
  exact power_isZero base Neutral.isZero_zero

omit [Unrounded κ] in
theorem powerWith_fuel {base exponent : Expr κ}
    (kept : base.Passes → exponent.wholeExponent? = none) (fuel other : Nat) :
    powerWith (fuel + 1) base exponent = powerWith (other + 1) base exponent := by
  unfold powerWith
  split
  · rfl
  split
  · rfl
  cases foldedPower? base exponent with
  | some value => rfl
  | none =>
      cases whole : exponent.asNumber?.bind Scalar.wholeExponent? with
      | none => rfl
      | some integer =>
          cases base with
          | pow => cases (kept (Or.inl rfl)).symm.trans whole
          | mul => cases (kept (Or.inr rfl)).symm.trans whole
          | _ => rfl

omit [Unrounded κ] in
theorem powerWith_eq_power {base exponent : Expr κ}
    (kept : base.Passes → exponent.wholeExponent? = none) (fuel : Nat) :
    powerWith (fuel + 1) base exponent = power base exponent :=
  powerWith_fuel kept fuel _

/-- No whole exponent comes up for a base that would pass it on. -/
def Kept (leaves : List (Expr κ)) : Prop :=
  ∀ base ∈ basesIn leaves, base.Passes → (sum (exponentsOf base leaves)).wholeExponent? = none

def powersIn (leaves : List (Expr κ)) : List (Expr κ) := (basesIn leaves).map (raised leaves)

def coefficientIn (leaves : List (Expr κ)) : κ :=
  (numbersIn (powersIn leaves)).foldl (· * ·) ((numbersIn leaves).foldl (· * ·) 1)

theorem power_symbolic {base exponent : Expr κ}
    (kept : base.Passes → exponent.wholeExponent? = none)
    (symbolic : (power base exponent).asNumber? = none) :
    (power base exponent).baseAndExponent = (base, exponent) ∧
      (power base exponent).label ≠ .mul := by
  rw [power, fuelFor] at symbolic ⊢
  unfold powerWith at symbolic ⊢
  cases zero : exponent.isZero with
  | true =>
      rw [zero, if_pos rfl] at symbolic
      cases symbolic
  | false =>
      rw [zero, if_neg Bool.false_ne_true] at symbolic
      rw [if_neg Bool.false_ne_true]
      cases isOne : exponent.isOne with
      | true =>
          rw [if_pos rfl]
          obtain ⟨value, rfl⟩ : ∃ value, exponent = num value := by
            cases exponent with
            | num value => exact ⟨value, rfl⟩
            | _ => cases isOne
          have plain : ¬ base.Passes := fun passes =>
            Neutral.whole_of_isOne value isOne (kept passes)
          rw [baseAndExponent_eq fun isPower => plain (Or.inl isPower),
            Unrounded.eq_one value isOne]
          exact ⟨rfl, fun isProduct => plain (Or.inr isProduct)⟩
      | false =>
          rw [isOne, if_neg Bool.false_ne_true] at symbolic
          rw [if_neg Bool.false_ne_true]
          cases folded : foldedPower? base exponent with
          | some value =>
              rw [folded] at symbolic
              cases symbolic
          | none =>
              rw [folded] at symbolic
              simp only at symbolic ⊢
              split at symbolic
              · rename_i whole
                cases (kept (Or.inl rfl)).symm.trans whole
              · rename_i whole
                cases (kept (Or.inr rfl)).symm.trans whole
              · split at symbolic
                · cases symbolic
                · rename_i baseOne
                  rw [if_neg baseOne]
                  exact ⟨rfl, fun same => by cases same⟩

theorem product_kept {operands : List (Expr κ)}
    (canonical : ∀ operand ∈ operands, operand.Canonical) (kept : Kept (factorsOf operands)) :
    product operands = ofFactors (coefficientIn (factorsOf operands))
      (symbolicIn (powersIn (factorsOf operands))) := by
  have leaves : ∀ leaf ∈ factorsOf operands, leaf.Canonical :=
    fun leaf member => (canonical_factorsOf canonical leaf member).1
  have powers : ((likeBases (symbolicIn (factorsOf operands))).map fun group =>
      powerWith (4 * nestingOf operands + 15) group.1
        (sumWith (4 * nestingOf operands + 15) group.2)) = powersIn (factorsOf operands) := by
    rw [likeBases_eq, List.map_map]
    refine List.map_congr_left fun base member => ?_
    have below := nestingOf_exponentsOf canonical base
    rw [Function.comp_apply, sumWith_eq_sum (exponentsOf_canonical base leaves) (by omega)]
    exact powerWith_eq_power (kept base member) _
  have parts : (powersIn (factorsOf operands)).flatMap pieces = powersIn (factorsOf operands) := by
    refine (List.flatMap_congr fun part member => ?_).trans (List.flatMap_singleton' _)
    obtain ⟨base, among, rfl⟩ := List.mem_map.mp member
    cases number : (raised (factorsOf operands) base).asNumber? with
    | none => exact pieces_eq_self (power_symbolic (kept base among) number).2
    | some value =>
        rw [asNumber?_eq_some.mp number]
        rfl
  rw [product, fuelFor, productWith]
  simp only [powers, parts]
  split
  · rename_i zero
    have nothing : Scalar.isZero (coefficientIn (factorsOf operands)) = true := by
      rw [coefficientIn, foldl_numbersIn]
      exact (Unrounded.isZero_mul _ _).trans (by rw [zero, Bool.true_or])
    rw [ofFactors, nothing, if_pos rfl]
  · rfl

/-! ### Products in another order -/

omit [Unrounded κ] in
theorem ofFactors_eq_of_perm {coefficient : κ} {left right : List (Expr κ)} (perm : left.Perm right)
    (told : Told (ofFactors coefficient left)) :
    ofFactors coefficient left = ofFactors coefficient right := by
  have same := arrange_perm left
  have length := same.length_eq
  rw [ofFactors] at told
  rw [ofFactors, ofFactors]
  split
  · rfl
  rename_i nonzero
  rw [if_neg nonzero] at told
  suffices equal : arrange left = arrange right by rw [equal]
  refine arrange_eq_of_perm perm ?_
  rcases left with _ | ⟨first, _ | ⟨second, rest⟩⟩
  · intro one among
    cases among
  · simp
  · intro one among other inside
    refine told one ?_ other ?_
    all_goals
      split
      · rename_i empty
        rw [empty] at length
        cases length
      · rename_i single _
        rw [single] at length
        cases length
      · exact same.mem_iff.mpr (by assumption)
      · exact List.mem_cons_of_mem _ (same.mem_iff.mpr (by assumption))

/-- The order tells the operands of a product and of all sums of exponents apart. -/
structure Arranged (operands : List (Expr κ)) : Prop where
  exponents : ∀ base ∈ basesIn (factorsOf operands),
    Told (sum (exponentsOf base (factorsOf operands)))
  factors : Told (product operands)

theorem Arranged.told {operands : List (Expr κ)} (arranged : Arranged operands) (base : Expr κ) :
    Told (sum (exponentsOf base (factorsOf operands))) := by
  by_cases known : base ∈ basesIn (factorsOf operands)
  · exact arranged.exponents base known
  · rw [exponentsOf_absent known, sum_nil]
    exact nofun

omit [Unrounded κ] in
theorem factorsOf_perm {left right : List (Expr κ)} (perm : left.Perm right) :
    (factorsOf left).Perm (factorsOf right) := by
  rw [factorsOf_eq, factorsOf_eq]
  exact perm.flatMap_right factors

theorem Arranged.sum_eq {left right : List (Expr κ)} (arranged : Arranged left)
    (perm : left.Perm right) (base : Expr κ) :
    sum (exponentsOf base (factorsOf left)) = sum (exponentsOf base (factorsOf right)) := by
  have leaves := factorsOf_perm perm
  by_cases known : base ∈ basesIn (factorsOf left)
  · exact sum_perm (exponentsOf_perm base leaves) (arranged.exponents base known)
  · rw [exponentsOf_absent known,
      exponentsOf_absent fun member => known ((basesIn_perm leaves).mem_iff.mpr member)]

theorem product_perm {left right : List (Expr κ)} (canonical : ∀ operand ∈ left, operand.Canonical)
    (perm : left.Perm right) (arranged : Arranged left) : product left = product right := by
  have also : ∀ operand ∈ right, operand.Canonical :=
    fun operand member => canonical operand (perm.mem_iff.mpr member)
  have leaves := factorsOf_perm perm
  have told := arranged.factors
  have powers {operands : List (Expr κ)} (canonical : ∀ operand ∈ operands, operand.Canonical)
      (same : nestingOf operands = nestingOf left) :
      ((likeBases (symbolicIn (factorsOf operands))).map fun group =>
        powerWith (4 * nestingOf left + 15) group.1
          (sumWith (4 * nestingOf left + 15) group.2)) =
        (basesIn (factorsOf operands)).map fun base =>
          powerWith (4 * nestingOf left + 15) base
            (sum (exponentsOf base (factorsOf operands))) := by
    rw [likeBases_eq, List.map_map]
    refine List.map_congr_left fun base _ => ?_
    have below := nestingOf_exponentsOf canonical base
    rw [Function.comp_apply, sumWith_eq_sum (exponentsOf_canonical base fun leaf member =>
      (canonical_factorsOf canonical leaf member).1) (by omega)]
  have coefficient : (numbersIn (factorsOf left)).foldl (· * ·) (1 : κ) =
      (numbersIn (factorsOf right)).foldl (· * ·) 1 := by
    rw [foldl_numbersIn, foldl_numbersIn, (leaves.map numeral).prod_eq]
  rw [product, fuelFor, productWith] at told
  rw [product, product, ← nestingOf_perm perm, fuelFor, productWith, productWith]
  simp only [powers canonical rfl, powers also (nestingOf_perm perm).symm, ← coefficient,
    ← arranged.sum_eq perm] at told ⊢
  split
  · rfl
  rename_i nonzero
  rw [if_neg nonzero] at told
  have parts := ((basesIn_perm leaves).map fun base => powerWith (4 * nestingOf left + 15) base
    (sum (exponentsOf base (factorsOf left)))).flatMap_right pieces
  rw [foldl_numbersIn, (parts.map numeral).prod_eq, ← foldl_numbersIn] at told ⊢
  exact ofFactors_eq_of_perm (symbolicIn_perm parts) told

/-! ### Products in products -/

theorem prod_numeral {exprs : List (Expr κ)} (symbolic : ∀ expr ∈ exprs, expr.asNumber? = none) :
    (exprs.map numeral).prod = 1 := by
  refine List.prod_eq_one fun value member => ?_
  obtain ⟨expr, among, rfl⟩ := List.mem_map.mp member
  exact numeral_symbolic (symbolic expr among)

theorem factors_ofFactors {coefficient : κ} (nonzero : Scalar.isZero coefficient = false)
    {operands : List (Expr κ)} (flat : ∀ operand ∈ operands, operand.label ≠ .mul)
    (symbolic : ∀ operand ∈ operands, operand.asNumber? = none) :
    ((factors (ofFactors coefficient operands)).map numeral).prod = coefficient ∧
      (symbolicIn (factors (ofFactors coefficient operands))).Perm operands := by
  have perm := arrange_perm operands
  replace flat : ∀ operand ∈ arrange operands, operand.label ≠ .mul :=
    fun operand member => flat operand (perm.mem_iff.mp member)
  replace symbolic : ∀ operand ∈ arrange operands, operand.asNumber? = none :=
    fun operand member => symbolic operand (perm.mem_iff.mp member)
  suffices shaped : ∃ front : List (Expr κ), (front.map numeral).prod = coefficient ∧
      symbolicIn front = [] ∧
      factors (ofFactors coefficient operands) = front ++ arrange operands by
    obtain ⟨front, product, none, whole⟩ := shaped
    rw [whole, List.map_append, List.prod_append, product, prod_numeral symbolic, mul_one,
      symbolicIn_append, none, List.nil_append, symbolicIn_eq_self symbolic]
    exact ⟨rfl, perm⟩
  have numbered : ([num coefficient].map numeral).prod = coefficient := mul_one coefficient
  unfold ofFactors
  rw [nonzero, if_neg Bool.false_ne_true, number_of_nonzero nonzero]
  generalize arrange operands = leaves at flat symbolic
  have whole : factors (mul (num coefficient :: leaves)) = [num coefficient] ++ leaves :=
    factorsOf_eq_self (List.forall_mem_cons.mpr ⟨nofun, flat⟩)
  cases isOne : Scalar.isOne coefficient with
  | true =>
      have unit : ([].map numeral).prod = coefficient := (Unrounded.eq_one coefficient isOne).symm
      match leaves with
      | [] => exact ⟨[num coefficient], numbered, rfl, rfl⟩
      | [leaf] => exact ⟨[], unit, rfl, factors_eq_self (flat leaf List.mem_cons_self)⟩
      | first :: second :: rest => exact ⟨[], unit, rfl, factorsOf_eq_self flat⟩
  | false =>
      match leaves with
      | [] => exact ⟨[num coefficient], numbered, rfl, rfl⟩
      | [leaf] => exact ⟨[num coefficient], numbered, rfl, whole⟩
      | first :: second :: rest => exact ⟨[num coefficient], numbered, rfl, whole⟩

/-- A product whose factors may become factors of a product with the other operands: no sum is left
over among the exponents of a base, none of them becomes whole by being added to the others, and a
power of numbers is not worked out while its base has other exponents. -/
structure Continues (operands others : List (Expr κ)) : Prop where
  collects : ∀ base ∈ basesIn (factorsOf operands),
    Collects (exponentsOf base (factorsOf operands))
  kept : Kept (factorsOf operands)
  released : ∀ base ∈ basesIn (factorsOf operands), base ∈ basesIn (factorsOf others) →
    (raised (factorsOf operands) base).asNumber? ≠ none →
      (sum (exponentsOf base (factorsOf operands))).isZero = true

theorem coefficientIn_eq (leaves : List (Expr κ)) :
    coefficientIn leaves = (leaves.map numeral).prod *
      ((basesIn leaves).map fun base => numeral (raised leaves base)).prod := by
  rw [coefficientIn, foldl_numbersIn, foldl_numbersIn, one_mul, powersIn, List.map_map]
  rfl

theorem coefficientIn_eq_of_subset {leaves bases : List (Expr κ)} (unique : bases.Nodup)
    (subset : ∀ base ∈ basesIn leaves, base ∈ bases) : coefficientIn leaves =
      (leaves.map numeral).prod * (bases.map fun base => numeral (raised leaves base)).prod := by
  have split : bases.Perm (basesIn leaves ++ bases.filter fun base => base ∉ basesIn leaves) := by
    refine (List.perm_ext_iff_of_nodup unique ?_).mpr fun base => ?_
    · refine (nodup_basesIn leaves).append (unique.filter _) fun base inside outside => ?_
      exact of_decide_eq_true (List.mem_filter.mp outside).2 inside
    · rw [List.mem_append, List.mem_filter, decide_eq_true_eq]
      refine ⟨fun member => ?_, ?_⟩
      · by_cases known : base ∈ basesIn leaves
        · exact Or.inl known
        · exact Or.inr ⟨member, known⟩
      · rintro (known | ⟨member, _⟩)
        · exact subset base known
        · exact member
  have ones : ((bases.filter fun base => base ∉ basesIn leaves).map fun base =>
      numeral (raised leaves base)).prod = 1 := by
    refine List.prod_eq_one fun value member => ?_
    obtain ⟨base, among, rfl⟩ := List.mem_map.mp member
    rw [raised_absent (of_decide_eq_true (List.mem_filter.mp among).2)]
    rfl
  rw [coefficientIn_eq, (split.map _).prod_eq, List.map_append, List.prod_append, ones, mul_one]

theorem isZero_coefficientIn {leaves : List (Expr κ)} :
    Scalar.isZero (coefficientIn leaves) = true ↔
      Scalar.isZero (leaves.map numeral).prod = true ∨
        ∃ base ∈ basesIn leaves, Scalar.isZero (numeral (raised leaves base)) = true := by
  rw [coefficientIn_eq, show Scalar.isZero (_ * _ : κ) = _ from Unrounded.isZero_mul _ _,
    Bool.or_eq_true, @isZero_prod _ _ _ ((basesIn leaves).map _)]
  simp only [List.mem_map, exists_exists_and_eq_and]

theorem sum_zero_cons {terms : List (Expr κ)} (canonical : ∀ term ∈ terms, term.Canonical)
    (told : Told (sum (zero :: terms))) : sum (zero :: terms) = sum terms := by
  refine sum_congr (List.forall_mem_cons.mpr ⟨canonical_zero, canonical⟩) canonical ?_ told
  refine ⟨fun rest => rfl, ?_⟩
  have leaves : addendsOf (zero :: terms) = [zero] ++ addendsOf terms := rfl
  rw [leaves, constantOf_append, show constantOf [(zero : Expr κ)] = 0 from Unrounded.zero_plus 0,
    Unrounded.zero_plus]

section

variable {operands others : List (Expr κ)} (canonical : ∀ operand ∈ operands, operand.Canonical)
  (also : ∀ operand ∈ others, operand.Canonical) (continues : Continues operands others)

theorem mem_basesIn_of_symbolic {leaves : List (Expr κ)} {base : Expr κ}
    (symbolic : (raised leaves base).asNumber? = none) : base ∈ basesIn leaves := by
  by_contra absent
  rw [raised_absent absent] at symbolic
  cases symbolic

include canonical continues

theorem Continues.canonical_product : (product operands).Canonical := by
  refine Expr.canonical_product canonical ⟨?_, ?_⟩
  all_goals
    rw [likeBases_eq, List.forall_mem_map]
    intro base member
  · exact (continues.collects base member).merges
  · exact continues.kept base member

theorem Continues.factors_product
    (nonzero : Scalar.isZero (coefficientIn (factorsOf operands)) = false) :
    ((factors (product operands)).map numeral).prod = coefficientIn (factorsOf operands) ∧
      (symbolicIn (factors (product operands))).Perm (symbolicIn (powersIn (factorsOf operands))) := by
  rw [product_kept canonical continues.kept]
  refine factors_ofFactors nonzero (fun part member => ?_) fun part => asNumber?_of_symbolic
  obtain ⟨base, among, rfl⟩ := List.mem_map.mp (List.mem_filter.mp member).1
  exact (power_symbolic (continues.kept base among) (asNumber?_of_symbolic member)).2

theorem Continues.exponentsOf_product
    (nonzero : Scalar.isZero (coefficientIn (factorsOf operands)) = false) (base : Expr κ) :
    exponentsOf base (factors (product operands)) =
      if (raised (factorsOf operands) base).asNumber? = none then
        [sum (exponentsOf base (factorsOf operands))] else [] := by
  have perm : (exponentsOf base (factors (product operands))).Perm
      (Grouping.valuesOf base ((symbolicIn (powersIn (factorsOf operands))).map baseAndExponent)) :=
    ((continues.factors_product canonical nonzero).2.map baseAndExponent).filterMap _
  have pairs : (symbolicIn (powersIn (factorsOf operands))).map baseAndExponent =
      ((basesIn (factorsOf operands)).filter fun base =>
        (raised (factorsOf operands) base).asNumber?.isNone).map fun base =>
          (base, sum (exponentsOf base (factorsOf operands))) := by
    rw [symbolicIn, powersIn, List.filter_map, List.map_map]
    refine List.map_congr_left fun base member => ?_
    obtain ⟨among, symbolic⟩ := List.mem_filter.mp member
    exact (power_symbolic (continues.kept base among) (Option.isNone_iff_eq_none.mp symbolic)).1
  have known : (base ∈ (basesIn (factorsOf operands)).filter fun base =>
      (raised (factorsOf operands) base).asNumber?.isNone) ↔
        (raised (factorsOf operands) base).asNumber? = none := by
    rw [List.mem_filter, Option.isNone_iff_eq_none]
    exact ⟨And.right, fun symbolic => ⟨mem_basesIn_of_symbolic symbolic, symbolic⟩⟩
  rw [pairs, Grouping.valuesOf_map_pair ((nodup_basesIn _).filter _) fun base =>
    sum (exponentsOf base (factorsOf operands))] at perm
  simp only [known] at perm
  split
  · rename_i symbolic
    rw [if_pos symbolic] at perm
    exact List.perm_singleton.mp perm
  · rename_i number
    rw [if_neg number] at perm
    exact List.perm_nil.mp perm

include also

theorem Continues.sum_exponents (nonzero : Scalar.isZero (coefficientIn (factorsOf operands)) = false)
    {base : Expr κ}
    (told : Told (sum (exponentsOf base (factorsOf operands ++ factorsOf others))))
    (passed : (raised (factorsOf operands) base).asNumber? = none ∨
      (sum (exponentsOf base (factorsOf operands))).isZero = true) :
    sum (exponentsOf base (factors (product operands) ++ factorsOf others)) =
      sum (exponentsOf base (factorsOf operands ++ factorsOf others)) := by
  have inside := exponentsOf_canonical base fun leaf member =>
    (canonical_factorsOf canonical leaf member).1
  have outside := exponentsOf_canonical base fun leaf member =>
    (canonical_factorsOf also leaf member).1
  have collects : Collects (exponentsOf base (factorsOf operands)) := by
    by_cases known : base ∈ basesIn (factorsOf operands)
    · exact continues.collects base known
    · rw [exponentsOf_absent known]
      exact nofun
  rw [exponentsOf_append] at told
  rw [exponentsOf_append, exponentsOf_append, continues.exponentsOf_product canonical nonzero,
    ← sum_sum inside outside collects told]
  split
  · rfl
  · rename_i number
    have vanishes := passed.resolve_left number
    have zero : sum (exponentsOf base (factorsOf operands)) = zero := by
      cases whole : sum (exponentsOf base (factorsOf operands)) with
      | num value =>
          rw [whole] at vanishes
          rw [Unrounded.eq_zero value vanishes]
          rfl
      | _ =>
          rw [whole] at vanishes
          cases vanishes
    rw [← sum_sum inside outside collects told, zero] at told
    rw [zero, sum_zero_cons outside told, List.nil_append]

/-- A base is passed on with its exponents, or the inner product has made a number of it. -/
theorem Continues.exponents_cases (nonzero : Scalar.isZero (coefficientIn (factorsOf operands)) = false)
    {base : Expr κ}
    (told : Told (sum (exponentsOf base (factorsOf operands ++ factorsOf others)))) :
    sum (exponentsOf base (factors (product operands) ++ factorsOf others)) =
        sum (exponentsOf base (factorsOf operands ++ factorsOf others)) ∧
      numeral (raised (factorsOf operands) base) = 1 ∨
    exponentsOf base (factors (product operands) ++ factorsOf others) = [] ∧
      exponentsOf base (factorsOf others) = [] ∧
        (raised (factorsOf operands) base).asNumber? ≠ none := by
  by_cases passed : (raised (factorsOf operands) base).asNumber? = none ∨
      (sum (exponentsOf base (factorsOf operands))).isZero = true
  · refine Or.inl ⟨continues.sum_exponents canonical also nonzero told passed, ?_⟩
    rcases passed with symbolic | vanishes
    · exact numeral_symbolic symbolic
    · rw [raised, power_isZero base vanishes]
      rfl
  · obtain ⟨number, present⟩ := not_or.mp passed
    have inside : base ∈ basesIn (factorsOf operands) := by
      by_contra absent
      rw [exponentsOf_absent absent, sum_nil] at present
      exact present Neutral.isZero_zero
    have outside : exponentsOf base (factorsOf others) = [] :=
      exponentsOf_absent fun again => present (continues.released base inside again number)
    refine Or.inr ⟨?_, outside, number⟩
    rw [exponentsOf_append, continues.exponentsOf_product canonical nonzero, outside, if_neg number,
      List.append_nil]

omit also in
theorem Continues.basesIn_subset (nonzero : Scalar.isZero (coefficientIn (factorsOf operands)) = false)
    {base : Expr κ} (member : base ∈ basesIn (factors (product operands) ++ factorsOf others)) :
    base ∈ basesIn (factorsOf operands ++ factorsOf others) := by
  rw [mem_basesIn_iff, exponentsOf_append] at member ⊢
  rw [continues.exponentsOf_product canonical nonzero] at member
  split at member
  · rename_i symbolic
    have inside := mem_basesIn_iff.mp (mem_basesIn_of_symbolic symbolic)
    exact fun empty => inside (List.append_eq_nil_iff.mp empty).1
  · exact fun empty => member (List.append_eq_nil_iff.mp empty).2

theorem Continues.kept_product (nonzero : Scalar.isZero (coefficientIn (factorsOf operands)) = false)
    (kept : Kept (factorsOf operands ++ factorsOf others))
    (told : ∀ base, Told (sum (exponentsOf base (factorsOf operands ++ factorsOf others)))) :
    Kept (factors (product operands) ++ factorsOf others) := by
  intro base member passes
  rcases continues.exponents_cases canonical also nonzero (told base) with ⟨same, _⟩ | ⟨none, _⟩
  · rw [same]
    exact kept base (continues.basesIn_subset canonical nonzero member) passes
  · exact absurd none (mem_basesIn_iff.mp member)

/-- The powers of the outer product are those of all operands, except for the numbers that the inner
product has made of some. -/
theorem Continues.raised_product (nonzero : Scalar.isZero (coefficientIn (factorsOf operands)) = false)
    {base : Expr κ}
    (told : Told (sum (exponentsOf base (factorsOf operands ++ factorsOf others)))) :
    numeral (raised (factorsOf operands) base) *
        numeral (raised (factors (product operands) ++ factorsOf others) base) =
      numeral (raised (factorsOf operands ++ factorsOf others) base) ∧
    ∀ power : Expr κ, power.asNumber? = none →
      (raised (factorsOf operands ++ factorsOf others) base = power ↔
        raised (factors (product operands) ++ factorsOf others) base = power) := by
  rcases continues.exponents_cases canonical also nonzero told with
    ⟨same, unit⟩ | ⟨none, outside, number⟩
  · rw [raised, raised, raised, same, ← raised, unit, one_mul]
    exact ⟨rfl, fun _ _ => Iff.rfl⟩
  · have nothing : raised (factors (product operands) ++ factorsOf others) base = one := by
      rw [raised, none, sum_nil]
      exact power_isZero base Neutral.isZero_zero
    have all : raised (factorsOf operands ++ factorsOf others) base =
        raised (factorsOf operands) base := by
      rw [raised, raised, exponentsOf_append, outside, List.append_nil]
    refine ⟨by rw [nothing, all]; exact mul_one _, fun power symbolic => ?_⟩
    rw [nothing, all]
    constructor
    · rintro rfl
      exact absurd symbolic number
    · rintro rfl
      cases symbolic

theorem Continues.coefficientIn_product
    (nonzero : Scalar.isZero (coefficientIn (factorsOf operands)) = false)
    (told : ∀ base, Told (sum (exponentsOf base (factorsOf operands ++ factorsOf others)))) :
    coefficientIn (factors (product operands) ++ factorsOf others) =
      coefficientIn (factorsOf operands ++ factorsOf others) := by
  have unique := nodup_basesIn (factorsOf operands ++ factorsOf others)
  have inner : coefficientIn (factorsOf operands) = _ :=
    coefficientIn_eq_of_subset unique fun base member => by
      rw [mem_basesIn_iff, exponentsOf_append]
      exact fun empty => mem_basesIn_iff.mp member (List.append_eq_nil_iff.mp empty).1
  have powers : ((basesIn (factorsOf operands ++ factorsOf others)).map fun base =>
      numeral (raised (factorsOf operands ++ factorsOf others) base)) = _ :=
    List.map_congr_left fun base _ =>
      (continues.raised_product canonical also nonzero (told base)).1.symm
  rw [coefficientIn_eq_of_subset unique fun base member =>
      continues.basesIn_subset canonical nonzero member, coefficientIn_eq, powers,
    List.prod_map_mul, List.map_append, List.prod_append,
    (continues.factors_product canonical nonzero).1, inner, List.map_append, List.prod_append,
    mul_assoc, mul_mul_mul_comm]

omit canonical also in
theorem Continues.isZero_append (zero : Scalar.isZero (coefficientIn (factorsOf operands)) = true) :
    Scalar.isZero (coefficientIn (factorsOf operands ++ factorsOf others)) = true := by
  rw [isZero_coefficientIn] at zero ⊢
  rcases zero with number | ⟨base, member, vanishes⟩
  · left
    rw [isZero_prod] at number ⊢
    obtain ⟨value, among, zero⟩ := number
    exact ⟨value, by rw [List.map_append]; exact List.mem_append_left _ among, zero⟩
  · right
    have unit : Scalar.isZero (1 : κ) = false := Neutral.isZero_one
    have number : (raised (factorsOf operands) base).asNumber? ≠ none := by
      intro symbolic
      rw [numeral_symbolic symbolic, unit] at vanishes
      cases vanishes
    have outside : exponentsOf base (factorsOf others) = [] := by
      refine exponentsOf_absent fun again => ?_
      have folded := power_isZero base (continues.released base member again number)
      rw [raised, folded] at vanishes
      exact absurd (unit.symm.trans vanishes) Bool.false_ne_true
    refine ⟨base, ?_, ?_⟩
    · rw [mem_basesIn_iff, exponentsOf_append]
      exact fun empty => mem_basesIn_iff.mp member (List.append_eq_nil_iff.mp empty).1
    · rwa [raised, exponentsOf_append, outside, List.append_nil]

end

omit [Unrounded κ] in
theorem factorsOf_append (left right : List (Expr κ)) :
    factorsOf (left ++ right) = factorsOf left ++ factorsOf right := by
  rw [factorsOf_eq, factorsOf_eq, factorsOf_eq, List.flatMap_append]

theorem product_eq_zero {operands : List (Expr κ)} (member : zero ∈ operands) :
    product operands = zero := by
  have among : zero ∈ factorsOf operands := by
    rw [factorsOf_eq]
    exact List.mem_flatMap.mpr ⟨zero, member, List.mem_singleton_self _⟩
  have vanishes : Scalar.isZero ((factorsOf operands).map numeral).prod = true :=
    isZero_prod.mpr ⟨0, List.mem_map_of_mem among, Neutral.isZero_zero⟩
  have coefficient := foldl_numbersIn (factorsOf operands) 1
  rw [one_mul] at coefficient
  rw [product, fuelFor, productWith]
  simp only [coefficient, vanishes, if_true]

theorem nodup_powersIn {leaves : List (Expr κ)} (kept : Kept leaves) :
    (symbolicIn (powersIn leaves)).Nodup := by
  have bases : (symbolicIn (powersIn leaves)).map (fun power => power.baseAndExponent.1) =
      (basesIn leaves).filter fun base => (raised leaves base).asNumber?.isNone := by
    rw [symbolicIn, powersIn, List.filter_map, List.map_map]
    refine (List.map_congr_left fun base member => ?_).trans (List.map_id _)
    obtain ⟨among, symbolic⟩ := List.mem_filter.mp member
    exact congrArg Prod.fst
      (power_symbolic (kept base among) (Option.isNone_iff_eq_none.mp symbolic)).1
  exact List.Nodup.of_map _ (bases ▸ (nodup_basesIn leaves).filter _)

theorem mem_powersIn {leaves : List (Expr κ)} {power : Expr κ} :
    power ∈ symbolicIn (powersIn leaves) ↔
      power.asNumber? = none ∧ ∃ base, raised leaves base = power := by
  rw [symbolicIn, List.mem_filter, Option.isNone_iff_eq_none, powersIn, List.mem_map]
  constructor
  · rintro ⟨⟨base, _, same⟩, symbolic⟩
    exact ⟨symbolic, base, same⟩
  · rintro ⟨symbolic, base, rfl⟩
    exact ⟨⟨base, mem_basesIn_of_symbolic symbolic, rfl⟩, symbolic⟩

theorem product_product {operands others : List (Expr κ)}
    (canonical : ∀ operand ∈ operands, operand.Canonical)
    (also : ∀ operand ∈ others, operand.Canonical) (continues : Continues operands others)
    (kept : Kept (factorsOf (operands ++ others))) (arranged : Arranged (operands ++ others)) :
    product (product operands :: others) = product (operands ++ others) := by
  have flat : factorsOf (product operands :: others) =
    factors (product operands) ++ factorsOf others := rfl
  have whole := product_kept (List.forall_mem_append.mpr ⟨canonical, also⟩) kept
  have told (base : Expr κ) := factorsOf_append operands others ▸ arranged.told base
  have factorsTold := arranged.factors
  rw [factorsOf_append] at whole kept
  rw [whole] at factorsTold ⊢
  cases zero : Scalar.isZero (coefficientIn (factorsOf operands)) with
  | true =>
      have inner : product operands = Expr.zero := by
        rw [product_kept canonical continues.kept, ofFactors, zero, if_pos rfl]
      rw [inner, ofFactors, continues.isZero_append zero, if_pos rfl,
        product_eq_zero List.mem_cons_self]
  | false =>
      have keptInner := continues.kept_product canonical also zero kept told
      rw [product_kept (List.forall_mem_cons.mpr ⟨continues.canonical_product canonical, also⟩)
        keptInner, flat, continues.coefficientIn_product canonical also zero told]
      refine (ofFactors_eq_of_perm ?_ factorsTold).symm
      refine (List.perm_ext_iff_of_nodup (nodup_powersIn kept) (nodup_powersIn keptInner)).mpr
        fun power => ?_
      rw [mem_powersIn, mem_powersIn]
      refine and_congr_right fun symbolic => exists_congr fun base => ?_
      exact (continues.raised_product canonical also zero (told base)).2 power symbolic

theorem Kept.perm {left right : List (Expr κ)} (kept : Kept (factorsOf left))
    (perm : left.Perm right) (arranged : Arranged left) : Kept (factorsOf right) := by
  intro base member passes
  rw [← arranged.sum_eq perm]
  exact kept base ((basesIn_perm (factorsOf_perm perm)).mem_iff.mpr member) passes

theorem Arranged.perm {left right : List (Expr κ)} (arranged : Arranged left)
    (canonical : ∀ operand ∈ left, operand.Canonical) (perm : left.Perm right) : Arranged right where
  exponents base member := by
    rw [← arranged.sum_eq perm]
    exact arranged.exponents base ((basesIn_perm (factorsOf_perm perm)).mem_iff.mpr member)
  factors := product_perm canonical perm arranged ▸ arranged.factors

theorem product_turn {operands : List (Expr κ)} {other : Expr κ}
    (canonical : ∀ operand ∈ operands, operand.Canonical) (also : other.Canonical)
    (continues : Continues operands [other]) (kept : Kept (factorsOf (operands ++ [other])))
    (arranged : Arranged (operands ++ [other])) :
    product [product operands, other] = product [other, product operands] := by
  have others : ∀ operand ∈ [other], operand.Canonical := List.forall_mem_singleton.mpr also
  cases zero : Scalar.isZero (coefficientIn (factorsOf operands)) with
  | true =>
      have inner : product operands = Expr.zero := by
        rw [product_kept canonical continues.kept, ofFactors, zero, if_pos rfl]
      rw [inner, product_eq_zero List.mem_cons_self,
        product_eq_zero (List.mem_cons_of_mem _ List.mem_cons_self)]
  | false =>
      have told (base : Expr κ) := factorsOf_append operands [other] ▸ arranged.told base
      refine product_perm (List.forall_mem_cons.mpr ⟨continues.canonical_product canonical, others⟩)
        (List.Perm.swap _ _ _) ⟨fun base _ => ?_, ?_⟩
      · rcases continues.exponents_cases canonical others zero (told base) with ⟨same, _⟩ | ⟨none, _⟩
        · exact same.symm ▸ told base
        · change Told (sum (exponentsOf base (factors (product operands) ++ factorsOf [other])))
          rw [none, sum_nil]
          intro first among
          cases among
      · rw [product_product canonical others continues kept arranged]
        exact arranged.factors

theorem product_assoc {first second third : Expr κ}
    (canonical : ∀ operand ∈ [first, second, third], operand.Canonical)
    (left : Continues [first, second] [third]) (right : Continues [second, third] [first])
    (kept : Kept (factorsOf [first, second, third])) (arranged : Arranged [first, second, third]) :
    product [product [first, second], third] = product [first, product [second, third]] := by
  have front : ∀ operand ∈ [first, second], operand.Canonical := by simp_all
  have back : ∀ operand ∈ [second, third], operand.Canonical := by simp_all
  have turn : [first, second, third].Perm [second, third, first] :=
    @List.perm_append_comm _ [first] [second, third]
  have turned := arranged.perm canonical turn
  have keptTurned := kept.perm turn arranged
  calc product [product [first, second], third] = product [first, second, third] :=
        product_product front (by simp_all) left kept arranged
    _ = product [second, third, first] := product_perm canonical turn arranged
    _ = product [product [second, third], first] :=
        (product_product back (by simp_all) right keptTurned turned).symm
    _ = product [first, product [second, third]] :=
        product_turn back (by simp_all) right keptTurned turned

end

end Expr

end Mechanism
