import Mechanism.Proofs.Expr.Meaning

/-!
The canonical constructors keep values: where all operands have a value, a sum has the value of
the sum, and a product, a power or a function that of the operation. What is dropped, merged or
folded on the way never changes a value, though it may give one to an expression that had none.
-/

namespace Mechanism.Expr

variable {κ : Type} [Scalar κ]

theorem asNumber?_eq_some {expr : Expr κ} {value : κ} :
    expr.asNumber? = some value ↔ expr = num value := by
  cases expr <;> simp [asNumber?]

variable [Exact κ] {assignment : Assignment}

theorem isZero_iff (number : κ) : Scalar.isZero number = true ↔ Exact.real number = 0 := by
  rw [Scalar.isZero, Exact.isEqual_iff, Exact.real_zero]

theorem isOne_iff (number : κ) : Scalar.isOne number = true ↔ Exact.real number = 1 := by
  rw [Scalar.isOne, Exact.isEqual_iff, Exact.real_one]

theorem real_unsigned (number : κ) : Exact.real (Scalar.unsigned number) = Exact.real number := by
  unfold Scalar.unsigned
  split
  · rename_i zero
    rw [Exact.real_zero, (isZero_iff number).mp zero]
  · rfl

theorem takes_number (value : κ) : (number value).Takes assignment (Exact.real value) := by
  rw [number, takes_num, real_unsigned]

theorem takes_zero : (zero : Expr κ).Takes assignment 0 := by
  rw [zero, takes_num, Exact.real_zero]

theorem takes_one : (one : Expr κ).Takes assignment 1 := by
  rw [one, takes_num, Exact.real_one]

theorem real_foldl_add (numbers : List κ) (start : κ) :
    Exact.real (numbers.foldl (· + ·) start) =
      Exact.real start + (numbers.map Exact.real).sum := by
  induction numbers generalizing start with
  | nil => simp
  | cons head tail ih =>
      rw [List.foldl_cons, ih, Exact.real_add, List.map_cons, List.sum_cons, add_assoc]

theorem real_foldl_mul (numbers : List κ) (start : κ) :
    Exact.real (numbers.foldl (· * ·) start) =
      Exact.real start * (numbers.map Exact.real).prod := by
  induction numbers generalizing start with
  | nil => simp
  | cons head tail ih =>
      rw [List.foldl_cons, ih, Exact.real_mul, List.map_cons, List.prod_cons, mul_assoc]

theorem isZero_takes {expr : Expr κ} (zero : expr.isZero = true) : expr.Takes assignment 0 := by
  obtain ⟨value, numeric, vanishes⟩ := (Option.any_eq_true _ _).mp zero
  rw [asNumber?_eq_some.mp numeric, takes_num, (isZero_iff value).mp vanishes]

theorem isOne_takes {expr : Expr κ} (one : expr.isOne = true) : expr.Takes assignment 1 := by
  obtain ⟨value, numeric, unit⟩ := (Option.any_eq_true _ _).mp one
  rw [asNumber?_eq_some.mp numeric, takes_num, (isOne_iff value).mp unit]

theorem Takes.unique {expr : Expr κ} {first second : ℝ} (left : expr.Takes assignment first)
    (right : expr.Takes assignment second) : first = second :=
  Option.some.inj (left.symm.trans right)

/-- All of the operands have a value, and these add up to the given one. -/
def SumsTo (assignment : Assignment) (exprs : List (Expr κ)) (value : ℝ) : Prop :=
  (∀ expr ∈ exprs, expr.Defined assignment) ∧ (exprs.map (valueIn assignment)).sum = value

/-- All of the operands have a value, and the given one is their product. -/
def MultipliesTo (assignment : Assignment) (exprs : List (Expr κ)) (value : ℝ) : Prop :=
  (∀ expr ∈ exprs, expr.Defined assignment) ∧ (exprs.map (valueIn assignment)).prod = value

@[simp] theorem sumsTo_nil {value : ℝ} :
    SumsTo assignment ([] : List (Expr κ)) value ↔ value = 0 := by
  simp [SumsTo, eq_comm]

theorem sumsTo_cons {head : Expr κ} {tail : List (Expr κ)} {value : ℝ} :
    SumsTo assignment (head :: tail) value ↔
      ∃ x y, head.Takes assignment x ∧ SumsTo assignment tail y ∧ x + y = value := by
  simp only [SumsTo, List.forall_mem_cons, List.map_cons, List.sum_cons]
  constructor
  · rintro ⟨⟨first, rest⟩, same⟩
    exact ⟨_, _, first.takes, ⟨rest, rfl⟩, same⟩
  · rintro ⟨x, y, first, ⟨rest, rfl⟩, rfl⟩
    exact ⟨⟨first.defined, rest⟩, by rw [first.valueIn_eq]⟩

@[simp] theorem sumsTo_singleton {expr : Expr κ} {value : ℝ} :
    SumsTo assignment [expr] value ↔ expr.Takes assignment value := by
  simp [sumsTo_cons]

theorem SumsTo.append {left right : List (Expr κ)} {x y : ℝ} (first : SumsTo assignment left x)
    (second : SumsTo assignment right y) : SumsTo assignment (left ++ right) (x + y) := by
  refine ⟨?_, by rw [List.map_append, List.sum_append, first.2, second.2]⟩
  intro expr member
  rcases List.mem_append.mp member with before | after
  · exact first.1 expr before
  · exact second.1 expr after

theorem SumsTo.perm {left right : List (Expr κ)} {value : ℝ} (sums : SumsTo assignment left value)
    (perm : right.Perm left) : SumsTo assignment right value :=
  ⟨fun expr member => sums.1 expr (perm.mem_iff.mp member), by rw [(perm.map _).sum_eq, sums.2]⟩

@[simp] theorem multipliesTo_nil {value : ℝ} :
    MultipliesTo assignment ([] : List (Expr κ)) value ↔ value = 1 := by
  simp [MultipliesTo, eq_comm]

theorem multipliesTo_cons {head : Expr κ} {tail : List (Expr κ)} {value : ℝ} :
    MultipliesTo assignment (head :: tail) value ↔
      ∃ x y, head.Takes assignment x ∧ MultipliesTo assignment tail y ∧ x * y = value := by
  simp only [MultipliesTo, List.forall_mem_cons, List.map_cons, List.prod_cons]
  constructor
  · rintro ⟨⟨first, rest⟩, same⟩
    exact ⟨_, _, first.takes, ⟨rest, rfl⟩, same⟩
  · rintro ⟨x, y, first, ⟨rest, rfl⟩, rfl⟩
    exact ⟨⟨first.defined, rest⟩, by rw [first.valueIn_eq]⟩

@[simp] theorem multipliesTo_singleton {expr : Expr κ} {value : ℝ} :
    MultipliesTo assignment [expr] value ↔ expr.Takes assignment value := by
  simp [multipliesTo_cons]

theorem MultipliesTo.append {left right : List (Expr κ)} {x y : ℝ}
    (first : MultipliesTo assignment left x) (second : MultipliesTo assignment right y) :
    MultipliesTo assignment (left ++ right) (x * y) := by
  refine ⟨?_, by rw [List.map_append, List.prod_append, first.2, second.2]⟩
  intro expr member
  rcases List.mem_append.mp member with before | after
  · exact first.1 expr before
  · exact second.1 expr after

theorem MultipliesTo.perm {left right : List (Expr κ)} {value : ℝ}
    (multiplies : MultipliesTo assignment left value) (perm : right.Perm left) :
    MultipliesTo assignment right value :=
  ⟨fun expr member => multiplies.1 expr (perm.mem_iff.mp member),
    by rw [(perm.map _).prod_eq, multiplies.2]⟩

theorem sumsTo_flatMap {terms : List (Expr κ)} {value : ℝ} {expand : Expr κ → List (Expr κ)}
    (expands : ∀ term ∈ terms, ∀ x, term.Takes assignment x → SumsTo assignment (expand term) x)
    (sums : SumsTo assignment terms value) :
    SumsTo assignment (terms.flatMap expand) value := by
  induction terms generalizing value with
  | nil => exact sums
  | cons head tail ih =>
      obtain ⟨x, y, first, rest, rfl⟩ := sumsTo_cons.mp sums
      exact (expands head List.mem_cons_self x first).append
        (ih (fun term member => expands term (List.mem_cons_of_mem _ member)) rest)

theorem multipliesTo_flatMap {operands : List (Expr κ)} {value : ℝ}
    {expand : Expr κ → List (Expr κ)}
    (expands : ∀ operand ∈ operands, ∀ x, operand.Takes assignment x →
      MultipliesTo assignment (expand operand) x)
    (multiplies : MultipliesTo assignment operands value) :
    MultipliesTo assignment (operands.flatMap expand) value := by
  induction operands generalizing value with
  | nil => exact multiplies
  | cons head tail ih =>
      obtain ⟨x, y, first, rest, rfl⟩ := multipliesTo_cons.mp multiplies
      exact (expands head List.mem_cons_self x first).append
        (ih (fun operand member => expands operand (List.mem_cons_of_mem _ member)) rest)

theorem sumsTo_addends (expr : Expr κ) :
    ∀ value, expr.Takes assignment value → SumsTo assignment (addends expr) value := by
  induction expr using induct with
  | step expr ih =>
      intro value takes
      cases expr with
      | add terms =>
          rw [addends, addendsOf_eq]
          exact sumsTo_flatMap ih (takes_add.mp takes)
      | _ => simpa [addends] using takes

theorem multipliesTo_factors (expr : Expr κ) :
    ∀ value, expr.Takes assignment value → MultipliesTo assignment (factors expr) value := by
  induction expr using induct with
  | step expr ih =>
      intro value takes
      cases expr with
      | mul operands =>
          rw [factors, factorsOf_eq]
          exact multipliesTo_flatMap ih (takes_mul.mp takes)
      | _ => simpa [factors] using takes

theorem SumsTo.leaves {terms : List (Expr κ)} {value : ℝ} (sums : SumsTo assignment terms value) :
    SumsTo assignment (addendsOf terms) value := by
  rw [addendsOf_eq]
  exact sumsTo_flatMap (fun term _ => sumsTo_addends term) sums

theorem MultipliesTo.leaves {operands : List (Expr κ)} {value : ℝ}
    (multiplies : MultipliesTo assignment operands value) :
    MultipliesTo assignment (factorsOf operands) value := by
  rw [factorsOf_eq]
  exact multipliesTo_flatMap (fun operand _ => multipliesTo_factors operand) multiplies

theorem MultipliesTo.pieces {powers : List (Expr κ)} {value : ℝ}
    (multiplies : MultipliesTo assignment powers value) :
    MultipliesTo assignment (powers.flatMap pieces) value := by
  apply multipliesTo_flatMap _ multiplies
  intro power _ x takes
  cases power with
  | mul operands => exact takes_mul.mp takes
  | _ => simpa [Expr.pieces] using takes

theorem SumsTo.split {leaves : List (Expr κ)} {value : ℝ} (sums : SumsTo assignment leaves value) :
    ∃ rest, SumsTo assignment (symbolicIn leaves) rest ∧
      ((numbersIn leaves).map Exact.real).sum + rest = value := by
  induction leaves generalizing value with
  | nil => exact ⟨0, by simp [symbolicIn], by simpa [numbersIn] using sums.2⟩
  | cons head tail ih =>
      obtain ⟨x, y, first, later, rfl⟩ := sumsTo_cons.mp sums
      obtain ⟨rest, symbolic, whole⟩ := ih later
      cases numeric : head.asNumber? with
      | some number =>
          rw [asNumber?_eq_some.mp numeric, takes_num] at first
          refine ⟨rest, by simpa [symbolicIn, numeric] using symbolic, ?_⟩
          simp only [numbersIn, List.filterMap_cons, numeric, List.map_cons, List.sum_cons]
          rw [← whole, numbersIn, first, add_assoc]
      | none =>
          refine ⟨x + rest, ?_, ?_⟩
          · simp only [symbolicIn, List.filter_cons, numeric, Option.isNone_none, ↓reduceIte]
            exact sumsTo_cons.mpr ⟨x, rest, first, symbolic, rfl⟩
          · simp only [numbersIn, List.filterMap_cons, numeric]
            rw [← whole, numbersIn]
            ring

theorem MultipliesTo.split {leaves : List (Expr κ)} {value : ℝ}
    (multiplies : MultipliesTo assignment leaves value) :
    ∃ rest, MultipliesTo assignment (symbolicIn leaves) rest ∧
      ((numbersIn leaves).map Exact.real).prod * rest = value := by
  induction leaves generalizing value with
  | nil => exact ⟨1, by simp [symbolicIn], by simpa [numbersIn] using multiplies.2⟩
  | cons head tail ih =>
      obtain ⟨x, y, first, later, rfl⟩ := multipliesTo_cons.mp multiplies
      obtain ⟨rest, symbolic, whole⟩ := ih later
      cases numeric : head.asNumber? with
      | some number =>
          rw [asNumber?_eq_some.mp numeric, takes_num] at first
          refine ⟨rest, by simpa [symbolicIn, numeric] using symbolic, ?_⟩
          simp only [numbersIn, List.filterMap_cons, numeric, List.map_cons, List.prod_cons]
          rw [← whole, numbersIn, first, mul_assoc]
      | none =>
          refine ⟨x * rest, ?_, ?_⟩
          · simp only [symbolicIn, List.filter_cons, numeric, Option.isNone_none, ↓reduceIte]
            exact multipliesTo_cons.mpr ⟨x, rest, first, symbolic, rfl⟩
          · simp only [numbersIn, List.filterMap_cons, numeric]
            rw [← whole, numbersIn]
            ring

theorem takes_ofTerms {terms : List (Expr κ)} {value : ℝ} (sums : SumsTo assignment terms value) :
    (ofTerms terms).Takes assignment value := by
  unfold ofTerms
  split
  · rw [sumsTo_nil.mp sums]
    exact takes_zero
  · exact sumsTo_singleton.mp sums
  · exact takes_add.mpr (sums.perm (arrange_perm _))

theorem takes_ofFactors {coefficient : κ} {operands : List (Expr κ)} {value : ℝ}
    (multiplies : MultipliesTo assignment operands value) :
    (ofFactors coefficient operands).Takes assignment (Exact.real coefficient * value) := by
  have sorted := multiplies.perm (arrange_perm operands)
  unfold ofFactors
  split
  · rename_i vanishes
    rw [(isZero_iff coefficient).mp vanishes, zero_mul]
    exact takes_zero
  · generalize arrange operands = arranged at sorted
    split
    · rw [multipliesTo_nil.mp sorted, mul_one]
      exact takes_number coefficient
    · rename_i unit
      rw [(isOne_iff coefficient).mp unit, one_mul]
      exact multipliesTo_singleton.mp sorted
    · rename_i _ unit
      rw [(isOne_iff coefficient).mp unit, one_mul]
      exact takes_mul.mpr sorted
    · exact takes_mul.mpr (multipliesTo_cons.mpr ⟨_, _, takes_number coefficient, sorted, rfl⟩)

theorem takes_splitCoefficient {term : Expr κ} {value : ℝ} (takes : term.Takes assignment value) :
    ∃ rest, term.splitCoefficient.2.Takes assignment rest ∧
      Exact.real term.splitCoefficient.1 * rest = value := by
  unfold splitCoefficient
  split
  · rw [takes_num] at takes
    exact ⟨1, takes_one, by rw [mul_one, takes]⟩
  · obtain ⟨x, y, first, rest, rfl⟩ := multipliesTo_cons.mp (takes_mul.mp takes)
    rw [takes_num] at first
    exact ⟨y, multipliesTo_singleton.mp rest, by rw [first]⟩
  · obtain ⟨x, y, first, rest, rfl⟩ := multipliesTo_cons.mp (takes_mul.mp takes)
    rw [takes_num] at first
    exact ⟨y, takes_mul.mpr rest, by rw [first]⟩
  · exact ⟨value, takes, by rw [Exact.real_one, one_mul]⟩

theorem takes_baseAndExponent {factor : Expr κ} {value : ℝ}
    (takes : factor.Takes assignment value) :
    ∃ b e, factor.baseAndExponent.1.Takes assignment b ∧
      factor.baseAndExponent.2.Takes assignment e ∧ realPower b e = some value := by
  unfold baseAndExponent
  split
  · exact takes_pow.mp takes
  · exact ⟨value, 1, takes, takes_one, realPower_one value⟩

noncomputable def weigh (assignment : Assignment) (term : Expr κ × κ) : ℝ :=
  Exact.real term.2 * term.1.valueIn assignment

theorem likeTerms_sum {terms : List (Expr κ)} {value : ℝ} (sums : SumsTo assignment terms value) :
    (∀ term ∈ likeTerms terms, term.1.Defined assignment) ∧
      ((likeTerms terms).map (weigh assignment)).sum = value := by
  let pairs := terms.map fun term => (term.splitCoefficient.2, term.splitCoefficient.1)
  have eachPair : (∀ pair ∈ pairs, pair.1.Defined assignment) ∧
      (pairs.map (weigh assignment)).sum = value := by
    simp only [pairs]
    clear pairs
    induction terms generalizing value with
    | nil => simpa [eq_comm] using sums
    | cons head tail ih =>
        obtain ⟨x, y, first, later, rfl⟩ := sumsTo_cons.mp sums
        obtain ⟨rest, takes, rfl⟩ := takes_splitCoefficient first
        obtain ⟨defined, total⟩ := ih later
        refine ⟨?_, ?_⟩
        · rw [List.map_cons, List.forall_mem_cons]
          exact ⟨takes.defined, defined⟩
        · rw [List.map_cons, List.map_cons, List.sum_cons, total, weigh, takes.valueIn_eq]
  have grouped : ((likeTerms terms).map (weigh assignment)).sum =
      (pairs.map (weigh assignment)).sum := by
    rw [← Grouping.sum_groups pairs, likeTerms, Grouping.ofPairs_eq, List.map_map, List.map_map]
    refine congrArg List.sum (List.map_congr_left fun key _ => ?_)
    simp only [Function.comp_apply, weigh, real_foldl_add, Exact.real_zero, zero_add]
    rw [← List.sum_map_mul_right]
  refine ⟨?_, grouped.trans eachPair.2⟩
  intro term member
  have key : term.1 ∈ pairs.map (·.1) := by
    have among : term.1 ∈ (likeTerms terms).map (·.1) := List.mem_map_of_mem member
    rw [likeTerms, Grouping.ofPairs_eq, List.map_map, List.map_map] at among
    exact Grouping.mem_distinct.mp (by simpa [Function.comp_def, pairs] using among)
  obtain ⟨pair, among, same⟩ := List.mem_map.mp key
  exact same ▸ eachPair.1 pair among

noncomputable def raise (assignment : Assignment) (factor : Expr κ × Expr κ) : Option ℝ :=
  realPower (factor.1.valueIn assignment) (factor.2.valueIn assignment)

/-- Every base and exponent has a value, and so has every power. -/
structure Raised (assignment : Assignment) (factor : Expr κ × Expr κ) : Prop where
  base : factor.1.Defined assignment
  exponent : factor.2.Defined assignment
  power : raise assignment factor = some ((raise assignment factor).getD 0)

theorem likeBases_product {operands : List (Expr κ)} {value : ℝ}
    (multiplies : MultipliesTo assignment operands value) :
    (∀ group ∈ likeBases operands, ∀ exponent ∈ group.2,
        Raised assignment (group.1, exponent)) ∧
      (∀ group ∈ likeBases operands, group.1.Defined assignment) ∧
      ((likeBases operands).map fun group =>
        (group.2.map fun exponent =>
          (raise assignment (group.1, exponent)).getD 0).prod).prod = value := by
  let pairs := operands.map baseAndExponent
  have eachPair : (∀ pair ∈ pairs, Raised assignment pair) ∧
      (pairs.map fun pair => (raise assignment pair).getD 0).prod = value := by
    simp only [pairs]
    clear pairs
    induction operands generalizing value with
    | nil => simpa [eq_comm] using multiplies
    | cons head tail ih =>
        obtain ⟨x, y, first, later, rfl⟩ := multipliesTo_cons.mp multiplies
        obtain ⟨b, e, base, exponent, power⟩ := takes_baseAndExponent first
        obtain ⟨raised, total⟩ := ih later
        have known : raise assignment head.baseAndExponent = some x := by
          rw [raise, base.valueIn_eq, exponent.valueIn_eq, power]
        refine ⟨?_, ?_⟩
        · rw [List.map_cons, List.forall_mem_cons]
          exact ⟨⟨base.defined, exponent.defined, by rw [known, Option.getD_some]⟩, raised⟩
        · rw [List.map_cons, List.map_cons, List.prod_cons, total, known, Option.getD_some]
  have groups : likeBases operands = (Grouping.distinct (pairs.map (·.1))).map fun key =>
      (key, Grouping.valuesOf key pairs) := Grouping.ofPairs_eq pairs
  rw [groups]
  refine ⟨?_, ?_, ?_⟩
  · intro group member exponent among
    obtain ⟨key, _, rfl⟩ := List.mem_map.mp member
    have pair : (key, exponent) ∈ (Grouping.valuesOf key pairs).map (Prod.mk key) :=
      List.mem_map_of_mem among
    rw [Grouping.map_valuesOf] at pair
    exact eachPair.1 _ (List.mem_of_mem_filter pair)
  · intro group member
    obtain ⟨key, among, rfl⟩ := List.mem_map.mp member
    obtain ⟨pair, present, rfl⟩ := List.mem_map.mp (Grouping.mem_distinct.mp among)
    exact (eachPair.1 pair present).base
  · rw [List.map_map, ← eachPair.2, ← Grouping.prod_groups pairs]
    rfl

theorem realPower_sum {base : ℝ} {exponents : List (Expr κ)} {power : Expr κ → ℝ}
    (powers : ∀ exponent ∈ exponents,
      realPower base (exponent.valueIn assignment) = some (power exponent)) :
    realPower base (exponents.map (valueIn assignment)).sum =
      some (exponents.map power).prod := by
  induction exponents with
  | nil => simpa using realPower_zero base
  | cons head tail ih =>
      rw [List.forall_mem_cons] at powers
      rw [List.map_cons, List.map_cons, List.sum_cons, List.prod_cons]
      exact realPower_add powers.1 (ih powers.2)

structure Sound (assignment : Assignment) (fuel : Nat) : Prop where
  sum : ∀ {terms : List (Expr κ)} {value : ℝ}, SumsTo assignment terms value →
    (sumWith fuel terms).Takes assignment value
  product : ∀ {operands : List (Expr κ)} {value : ℝ}, MultipliesTo assignment operands value →
    (productWith fuel operands).Takes assignment value
  power : ∀ {base exponent : Expr κ} {b e value : ℝ}, base.Takes assignment b →
    exponent.Takes assignment e → realPower b e = some value →
    (powerWith fuel base exponent).Takes assignment value

theorem Sound.scaledTerms {fuel : Nat} (sound : Sound (κ := κ) assignment fuel)
    {groups : List (Expr κ × κ)} (defined : ∀ group ∈ groups, group.1.Defined assignment) :
    SumsTo assignment (groups.filterMap (scaledTerm? (productWith fuel)))
      (groups.map (weigh assignment)).sum := by
  induction groups with
  | nil => simp
  | cons head tail ih =>
      rw [List.forall_mem_cons] at defined
      have later := ih defined.2
      have term := defined.1.takes
      simp only [List.filterMap_cons, List.map_cons, List.sum_cons, scaledTerm?]
      by_cases vanishes : Scalar.isZero head.2
      · simp only [vanishes, ↓reduceIte]
        rwa [weigh, (isZero_iff _).mp vanishes, zero_mul, zero_add]
      · by_cases unit : Scalar.isOne head.2
        · simp only [vanishes, unit, ↓reduceIte, Bool.false_eq_true]
          rw [weigh, (isOne_iff _).mp unit, one_mul]
          exact sumsTo_cons.mpr ⟨_, _, term, later, rfl⟩
        · simp only [vanishes, unit, ↓reduceIte, Bool.false_eq_true]
          have scaled := sound.product (multipliesTo_cons.mpr
            ⟨_, _, takes_number head.2, multipliesTo_singleton.mpr term, rfl⟩)
          exact sumsTo_cons.mpr ⟨_, _, scaled, later, rfl⟩

theorem Sound.sum_succ {fuel : Nat} (sound : Sound (κ := κ) assignment fuel)
    {terms : List (Expr κ)} {value : ℝ} (sums : SumsTo assignment terms value) :
    (sumWith (fuel + 1) terms).Takes assignment value := by
  obtain ⟨rest, symbolic, rfl⟩ := sums.leaves.split
  obtain ⟨defined, rfl⟩ := likeTerms_sum symbolic
  have scaled := sound.scaledTerms defined
  rw [sumWith, add_comm]
  apply takes_ofTerms
  apply scaled.append
  have constant := real_foldl_add (numbersIn (addendsOf terms)) 0
  rw [Exact.real_zero, zero_add] at constant
  rw [← constant]
  split
  · rename_i vanishes
    rw [(isZero_iff _).mp vanishes, sumsTo_nil]
  · exact sumsTo_singleton.mpr (takes_number _)

theorem Sound.powers {fuel : Nat} (sound : Sound (κ := κ) assignment fuel)
    {operands : List (Expr κ)} {value : ℝ} (multiplies : MultipliesTo assignment operands value) :
    MultipliesTo assignment
      ((likeBases operands).map fun group => powerWith fuel group.1 (sumWith fuel group.2))
      value := by
  obtain ⟨raised, bases, rfl⟩ := likeBases_product multiplies
  generalize likeBases operands = groups at raised bases
  induction groups with
  | nil => simp
  | cons head tail ih =>
      rw [List.forall_mem_cons] at raised bases
      rw [List.map_cons, List.map_cons, List.prod_cons]
      have exponents : SumsTo assignment head.2 (head.2.map (valueIn assignment)).sum :=
        ⟨fun exponent member => (raised.1 exponent member).exponent, rfl⟩
      have power := sound.power bases.1.takes (sound.sum exponents)
        (realPower_sum fun exponent member => (raised.1 exponent member).power)
      exact multipliesTo_cons.mpr ⟨_, _, power, ih raised.2 bases.2, rfl⟩

theorem Sound.product_succ {fuel : Nat} (sound : Sound (κ := κ) assignment fuel)
    {operands : List (Expr κ)} {value : ℝ} (multiplies : MultipliesTo assignment operands value) :
    (productWith (fuel + 1) operands).Takes assignment value := by
  obtain ⟨rest, symbolic, rfl⟩ := multiplies.leaves.split
  have constant := real_foldl_mul (numbersIn (factorsOf operands)) 1
  rw [Exact.real_one, one_mul] at constant
  rw [productWith, ← constant]
  simp only
  split
  · rename_i vanishes
    rw [(isZero_iff _).mp vanishes, zero_mul]
    exact takes_zero
  · obtain ⟨inner, remaining, rfl⟩ := (sound.powers symbolic).pieces.split
    rw [← mul_assoc, ← real_foldl_mul]
    exact takes_ofFactors remaining

theorem foldedPower?_takes {base exponent : Expr κ} {number : κ} {b e value : ℝ}
    (folded : foldedPower? base exponent = some number) (left : base.Takes assignment b)
    (right : exponent.Takes assignment e) (power : realPower b e = some value) :
    (Expr.number number).Takes assignment value := by
  unfold foldedPower? at folded
  split at folded
  · rw [takes_num] at left right
    have computed := (Option.filter_eq_some_iff.mp folded).1
    have exact := Exact.real_power (κ := κ) _ _ ▸ congrArg (Option.map Exact.real) computed
    rw [left, right, power, Option.map_some, Option.some.injEq] at exact
    rw [exact]
    exact takes_number number
  · cases folded

theorem whole_exponent {exponent : Expr κ} {whole : Int} {e : ℝ}
    (numeric : exponent.asNumber?.bind Scalar.wholeExponent? = some whole)
    (takes : exponent.Takes assignment e) : e = whole := by
  obtain ⟨number, isNumber, isWhole⟩ := Option.bind_eq_some_iff.mp numeric
  rw [asNumber?_eq_some.mp isNumber, takes_num] at takes
  rw [← takes, Exact.real_whole number whole isWhole]

theorem Sound.factorwise {fuel : Nat} (sound : Sound (κ := κ) assignment fuel)
    {operands : List (Expr κ)} {exponent : Expr κ} {whole : Int} {value : ℝ}
    (defined : ∀ operand ∈ operands, operand.Defined assignment)
    (right : exponent.Takes assignment whole)
    (power : realPower (operands.map (valueIn assignment)).prod whole = some value) :
    MultipliesTo assignment (operands.map fun factor => powerWith fuel factor exponent)
      value := by
  obtain ⟨powers, rfl⟩ := realPower_prod power
  rw [List.map_map]
  have each : ∀ factor ∈ operands, (powerWith fuel factor exponent).Takes assignment
      (factor.valueIn assignment ^ whole) := by
    intro factor member
    exact sound.power (defined factor member).takes right
      (powers _ (List.mem_map_of_mem member))
  constructor
  · rw [List.forall_mem_map]
    exact fun factor member => (each factor member).defined
  · rw [List.map_map]
    exact congrArg List.prod (List.map_congr_left fun factor member =>
      (each factor member).valueIn_eq)

theorem Sound.power_succ {fuel : Nat} (sound : Sound (κ := κ) assignment fuel)
    {base exponent : Expr κ} {b e value : ℝ} (left : base.Takes assignment b)
    (right : exponent.Takes assignment e) (power : realPower b e = some value) :
    (powerWith (fuel + 1) base exponent).Takes assignment value := by
  unfold powerWith
  split
  · rename_i zero
    rw [right.unique (isZero_takes zero), realPower_zero] at power
    cases power
    exact takes_one
  split
  · rename_i one
    rw [right.unique (isOne_takes one), realPower_one] at power
    cases power
    exact left
  split
  · rename_i folded
    exact foldedPower?_takes folded left right power
  split
  · rename_i inner innerExponent numeric _
    obtain ⟨x, a, first, second, innerPower⟩ := takes_pow.mp left
    have whole := whole_exponent numeric right
    subst whole
    apply sound.power first _ (realPower_mul innerPower power)
    exact sound.product (multipliesTo_cons.mpr
      ⟨_, _, second, multipliesTo_singleton.mpr right, rfl⟩)
  · rename_i operands numeric _
    obtain ⟨defined, rfl⟩ := takes_mul.mp left
    have whole := whole_exponent numeric right
    subst whole
    exact sound.product (sound.factorwise defined right power)
  · split
    · rename_i one
      rw [left.unique (isOne_takes one), one_realPower] at power
      cases power
      exact takes_one
    · exact takes_pow.mpr ⟨b, e, left, right, power⟩

theorem sound (assignment : Assignment) (fuel : Nat) : Sound (κ := κ) assignment fuel := by
  induction fuel with
  | zero =>
      constructor
      · intro terms value sums
        rw [sumWith]
        exact takes_add.mpr sums
      · intro operands value multiplies
        rw [productWith]
        exact takes_mul.mpr multiplies
      · intro base exponent b e value left right power
        rw [powerWith]
        exact takes_pow.mpr ⟨b, e, left, right, power⟩
  | succ fuel ih => exact ⟨ih.sum_succ, ih.product_succ, ih.power_succ⟩

theorem takes_sum {terms : List (Expr κ)} {value : ℝ} (sums : SumsTo assignment terms value) :
    (sum terms).Takes assignment value := (sound assignment _).sum sums

theorem takes_product {operands : List (Expr κ)} {value : ℝ}
    (multiplies : MultipliesTo assignment operands value) :
    (product operands).Takes assignment value := (sound assignment _).product multiplies

theorem takes_power {base exponent : Expr κ} {b e value : ℝ} (left : base.Takes assignment b)
    (right : exponent.Takes assignment e) (power : realPower b e = some value) :
    (Expr.power base exponent).Takes assignment value :=
  (sound assignment _).power left right power

theorem takes_apply {function : Elementary} {argument : Expr κ} {a value : ℝ}
    (takes : argument.Takes assignment a) (applied : function.realApply a = some value) :
    (apply function argument).Takes assignment value := by
  unfold apply
  simp only
  split
  · rename_i number folded
    obtain ⟨operand, numeric, computed⟩ := Option.bind_eq_some_iff.mp folded
    rw [asNumber?_eq_some.mp numeric, takes_num] at takes
    have exact := congrArg (Option.map Exact.real) (Option.filter_eq_some_iff.mp computed).1
    rw [Exact.real_apply, takes, applied, Option.map_some, Option.some.injEq] at exact
    rw [exact]
    exact takes_number number
  · exact takes_call.mpr ⟨a, takes, applied⟩

theorem takes_angleOf {y x : Expr κ} {ordinate abscissa : ℝ}
    (first : y.Takes assignment ordinate) (second : x.Takes assignment abscissa) :
    (angleOf y x).Takes assignment (realAngle ordinate abscissa) := by
  unfold angleOf
  split
  · rw [takes_num] at first second
    rw [← first, ← second, ← Exact.real_angle]
    exact takes_number _
  · exact takes_angle.mpr ⟨_, _, first, second, rfl⟩

open Classical in
theorem takes_choose {relation : Relation} {left right chosen otherwise : Expr κ}
    {l r value : ℝ} (first : left.Takes assignment l) (second : right.Takes assignment r)
    (taken : (if relation.Holds l r then chosen else otherwise).Takes assignment value) :
    (choose relation left right chosen otherwise).Takes assignment value := by
  unfold choose
  split
  · rename_i l' r'
    rw [takes_num] at first second
    subst first second
    by_cases holds : relation.Holds (Exact.real l') (Exact.real r')
    · rw [if_pos holds] at taken
      rwa [if_pos ((holds_iff relation l' r').mpr holds)]
    · rw [if_neg holds] at taken
      rwa [if_neg fun computed => holds ((holds_iff relation l' r').mp computed)]
  · split
    · rename_i same
      rw [eq_of_beq same, ite_self] at taken
      rwa [eq_of_beq same]
    · exact takes_cond.mpr ⟨l, r, first, second, taken⟩

theorem takes_integer (whole : Int) : (integer whole : Expr κ).Takes assignment whole := by
  rw [← Exact.real_ofInt (κ := κ)]
  exact takes_number _

theorem takes_minusOne : (number (-1) : Expr κ).Takes assignment (-1) := by
  have takes : (number (-1) : Expr κ).Takes assignment _ := takes_number (-1 : κ)
  rwa [Exact.real_neg, Exact.real_one] at takes

theorem takes_plus {left right : Expr κ} {x y : ℝ} (first : left.Takes assignment x)
    (second : right.Takes assignment y) : (left + right).Takes assignment (x + y) :=
  takes_sum (sumsTo_cons.mpr ⟨x, y, first, sumsTo_singleton.mpr second, rfl⟩)

theorem takes_times {left right : Expr κ} {x y : ℝ} (first : left.Takes assignment x)
    (second : right.Takes assignment y) : (left * right).Takes assignment (x * y) :=
  takes_product (multipliesTo_cons.mpr ⟨x, y, first, multipliesTo_singleton.mpr second, rfl⟩)

theorem takes_negate {expr : Expr κ} {x : ℝ} (takes : expr.Takes assignment x) :
    (-expr).Takes assignment (-x) := by
  rw [neg_eq_neg_one_mul]
  exact takes_times takes_minusOne takes

theorem takes_minus {left right : Expr κ} {x y : ℝ} (first : left.Takes assignment x)
    (second : right.Takes assignment y) : (left - right).Takes assignment (x - y) := by
  rw [sub_eq_add_neg]
  exact takes_plus first (takes_negate second)

theorem takes_reciprocal {expr : Expr κ} {x : ℝ} (takes : expr.Takes assignment x)
    (nonzero : x ≠ 0) : expr.reciprocal.Takes assignment x⁻¹ := by
  apply takes_power takes takes_minusOne
  have inverse : realPower x (-1 : ℤ) = some x⁻¹ :=
    realPower_whole.mpr ⟨fun zero => absurd zero nonzero, zpow_neg_one x⟩
  rwa [Int.cast_neg, Int.cast_one] at inverse

theorem takes_dividedBy {left right : Expr κ} {x y : ℝ} (first : left.Takes assignment x)
    (second : right.Takes assignment y) (nonzero : y ≠ 0) :
    (left / right).Takes assignment (x / y) := by
  rw [div_eq_mul_inv]
  exact takes_times first (takes_reciprocal second nonzero)

theorem takes_square {expr : Expr κ} {x : ℝ} (takes : expr.Takes assignment x) :
    expr.square.Takes assignment (x ^ 2) :=
  takes_power takes (takes_integer 2) (realPower_whole.mpr ⟨fun _ => by decide, zpow_ofNat x 2⟩)

end Mechanism.Expr
