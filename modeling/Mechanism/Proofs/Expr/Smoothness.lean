import Mechanism.Proofs.Expr.Smooth

/-!
What is built from smooth operands is smooth. The canonical constructors merge powers of one base
and raise powers to whole powers; where the base is zero, all exponents are positive whole numbers,
and so are their sums and products. The derivative of an expression that is smooth twice is smooth
once.
-/

namespace Mechanism.Expr

variable {κ : Type} [Scalar κ] [Exact κ] {assignment : Assignment}

/-- All of the expressions are smooth, so that they can be differentiated once. -/
def AllSmooth (assignment : Assignment) (exprs : List (Expr κ)) : Prop :=
  ∀ expr ∈ exprs, expr.SmoothAt 1 assignment

theorem AllSmooth.append {left right : List (Expr κ)} (first : AllSmooth assignment left)
    (second : AllSmooth assignment right) : AllSmooth assignment (left ++ right) :=
  fun expr member => (List.mem_append.mp member).elim (first expr) (second expr)

theorem AllSmooth.sums {exprs : List (Expr κ)} (smooth : AllSmooth assignment exprs) :
    SumsTo assignment exprs (exprs.map (valueIn assignment)).sum :=
  ⟨fun expr member => (smooth expr member).defined, rfl⟩

theorem AllSmooth.multiplies {exprs : List (Expr κ)} (smooth : AllSmooth assignment exprs) :
    MultipliesTo assignment exprs (exprs.map (valueIn assignment)).prod :=
  ⟨fun expr member => (smooth expr member).defined, rfl⟩

theorem SmoothAt.takes {order : Nat} {expr : Expr κ} (smooth : expr.SmoothAt order assignment) :
    expr.Takes assignment (expr.valueIn assignment) := smooth.defined.takes

section

variable {base exponent : Expr κ}

omit [Exact κ] in
theorem closed_of_whole {whole : Int}
    (numeric : exponent.asNumber?.bind Scalar.wholeExponent? = some whole) : exponent.Closed := by
  obtain ⟨number, isNumber, _⟩ := Option.bind_eq_some_iff.mp numeric
  rw [asNumber?_eq_some.mp isNumber]
  exact readsOnly_number number

theorem powerSmooth_number {value : κ} {whole : ℤ} (same : Exact.real value = whole)
    (least : base.valueIn assignment = 0 → 1 ≤ whole) :
    PowerSmooth 1 assignment base (number value) :=
  .inr ⟨whole, readsOnly_number value, same ▸ takes_number value, by exact_mod_cast least⟩

theorem powerSmooth_one : PowerSmooth 1 assignment base (one : Expr κ) :=
  .inr ⟨1, readsOnly_one, by exact_mod_cast takes_one, fun _ => le_refl 1⟩

theorem exists_whole_sum {exponents : List (Expr κ)} (flat : ¬0 < base.valueIn assignment)
    (smooth : ∀ exponent ∈ exponents, PowerSmooth 1 assignment base exponent) :
    ∃ whole : ℤ, (∀ exponent ∈ exponents, exponent.Closed) ∧ SumsTo assignment exponents whole ∧
      (base.valueIn assignment = 0 → (exponents.length : ℤ) ≤ whole) := by
  induction exponents with
  | nil => exact ⟨0, by simp, by simp, by simp⟩
  | cons head tail ih =>
      rw [List.forall_mem_cons] at smooth
      obtain ⟨first, closed, takes, least⟩ := smooth.1.resolve_left flat
      obtain ⟨rest, allClosed, sums, lower⟩ := ih smooth.2
      refine ⟨first + rest, List.forall_mem_cons.mpr ⟨closed, allClosed⟩, ?_, fun zero => ?_⟩
      · exact sumsTo_cons.mpr ⟨first, rest, takes, sums, by push_cast; rfl⟩
      · have one := least zero
        have others := lower zero
        rw [List.length_cons]
        push_cast at one ⊢
        omega

theorem powerSmooth_sum (fuel : Nat) {exponents : List (Expr κ)} (some : exponents ≠ [])
    (smooth : ∀ exponent ∈ exponents, PowerSmooth 1 assignment base exponent) :
    PowerSmooth 1 assignment base (sumWith fuel exponents) := by
  by_cases positive : 0 < base.valueIn assignment
  · exact .inl positive
  · obtain ⟨whole, closed, sums, least⟩ := exists_whole_sum positive smooth
    refine .inr ⟨whole, ?_, (sound assignment fuel).sum sums, fun zero => ?_⟩
    · exact readsOnly_of_uses_le _ (fun wanted => (sparing wanted fuel).sum exponents) closed
    · have count := List.length_pos_of_ne_nil some
      have lower := least zero
      push_cast
      omega

theorem powerSmooth_product (fuel : Nat) {raised : Expr κ} {whole : ℤ}
    (defined : base.Defined assignment) (smooth : PowerSmooth 1 assignment base exponent)
    (closed : raised.Closed) (takes : raised.Takes assignment whole)
    (again : PowerSmooth 1 assignment (pow base exponent) raised) :
    PowerSmooth 1 assignment base (productWith fuel [exponent, raised]) := by
  rcases smooth with positive | ⟨first, innerClosed, innerTakes, least⟩
  · exact .inl positive
  · have multiplies : MultipliesTo assignment [exponent, raised] ((first * whole : ℤ) : ℝ) := by
      refine multipliesTo_cons.mpr ⟨first, whole, innerTakes, multipliesTo_singleton.mpr takes, ?_⟩
      push_cast
      rfl
    refine .inr ⟨first * whole, ?_, (sound assignment fuel).product multiplies, fun zero => ?_⟩
    · refine readsOnly_of_uses_le _ (fun wanted => (sparing wanted fuel).product _) ?_
      exact List.forall_mem_cons.mpr ⟨innerClosed, List.forall_mem_singleton.mpr closed⟩
    · have positive := least zero
      have vanishes : (pow base exponent).valueIn assignment = 0 := by
        have power : realPower 0 (first : ℝ) = some 0 :=
          realPower_whole.mpr ⟨fun _ => zero_le_one.trans positive, zero_zpow first (by omega)⟩
        exact (takes_pow.mpr ⟨0, first, zero ▸ defined.takes, innerTakes, power⟩).valueIn_eq
      rcases again with above | ⟨second, _, other, lower⟩
      · exact absurd vanishes above.ne'
      · have same : second = whole := by exact_mod_cast other.unique takes
        exact one_le_mul_of_one_le_of_one_le positive (same ▸ lower vanishes)

theorem powerSmooth_factor {operands : List (Expr κ)} {factor raised : Expr κ} {whole : ℤ}
    (smooth : PowerSmooth 1 assignment (mul operands) raised) (closed : raised.Closed)
    (takes : raised.Takes assignment whole) (all : AllSmooth assignment operands)
    (member : factor ∈ operands) : PowerSmooth 1 assignment factor raised := by
  refine .inr ⟨whole, closed, takes, fun zero => ?_⟩
  have vanishes : (mul operands).valueIn assignment = 0 := by
    rw [(takes_mul.mpr all.multiplies).valueIn_eq]
    exact List.prod_eq_zero (zero ▸ List.mem_map_of_mem member)
  rcases smooth with above | ⟨second, _, other, lower⟩
  · exact absurd vanishes above.ne'
  · have same : second = whole := by exact_mod_cast other.unique takes
    exact same ▸ lower vanishes

end

theorem smooth_addends {expr : Expr κ} (smooth : expr.SmoothAt 1 assignment) :
    AllSmooth assignment (addends expr) := by
  induction expr using induct with
  | step expr ih =>
      cases expr with
      | add terms =>
          cases smooth with
          | add each =>
              rw [addends, addendsOf_eq]
              exact List.forall_mem_flatMap.mpr fun term member => ih term member (each term member)
      | _ => simpa [addends, AllSmooth] using smooth

theorem smooth_factors {expr : Expr κ} (smooth : expr.SmoothAt 1 assignment) :
    AllSmooth assignment (factors expr) := by
  induction expr using induct with
  | step expr ih =>
      cases expr with
      | mul operands =>
          cases smooth with
          | mul each =>
              rw [factors, factorsOf_eq]
              exact List.forall_mem_flatMap.mpr fun operand member =>
                ih operand member (each operand member)
      | _ => simpa [factors, AllSmooth] using smooth

theorem AllSmooth.addends {terms : List (Expr κ)} (smooth : AllSmooth assignment terms) :
    AllSmooth assignment (addendsOf terms) := by
  rw [addendsOf_eq]
  exact List.forall_mem_flatMap.mpr fun term member => smooth_addends (smooth term member)

theorem AllSmooth.factors {operands : List (Expr κ)} (smooth : AllSmooth assignment operands) :
    AllSmooth assignment (factorsOf operands) := by
  rw [factorsOf_eq]
  exact List.forall_mem_flatMap.mpr fun operand member => smooth_factors (smooth operand member)

theorem AllSmooth.symbolic {operands : List (Expr κ)} (smooth : AllSmooth assignment operands) :
    AllSmooth assignment (symbolicIn operands) :=
  fun operand member => smooth operand (List.mem_of_mem_filter member)

theorem AllSmooth.pieces {powers : List (Expr κ)} (smooth : AllSmooth assignment powers) :
    AllSmooth assignment (powers.flatMap pieces) := by
  refine List.forall_mem_flatMap.mpr fun power member => ?_
  have whole := smooth power member
  cases power with
  | mul operands =>
      cases whole with
      | mul each => exact each
  | _ => simpa [Expr.pieces] using whole

theorem smooth_splitCoefficient {term : Expr κ} (smooth : term.SmoothAt 1 assignment) :
    term.splitCoefficient.2.SmoothAt 1 assignment := by
  unfold splitCoefficient
  split
  · exact .num 1
  · cases smooth with
    | mul each => exact each _ (by simp)
  · cases smooth with
    | mul each => exact .mul fun operand member => each operand (List.mem_cons_of_mem _ member)
  · exact smooth

theorem smooth_likeTerms {terms : List (Expr κ)} (smooth : AllSmooth assignment terms) :
    ∀ group ∈ likeTerms terms, group.1.SmoothAt 1 assignment := by
  intro group member
  simp only [likeTerms, Grouping.ofPairs_eq, List.map_map] at member
  obtain ⟨key, among, rfl⟩ := List.mem_map.mp member
  obtain ⟨term, present, rfl⟩ := List.mem_map.mp (Grouping.mem_distinct.mp among)
  exact smooth_splitCoefficient (smooth term present)

/-- A base with its exponents, of which there is at least one. -/
structure GroupSmooth (assignment : Assignment) (group : Expr κ × List (Expr κ)) : Prop where
  base : group.1.SmoothAt 1 assignment
  exponents : AllSmooth assignment group.2
  nonempty : group.2 ≠ []
  power : ∀ exponent ∈ group.2, PowerSmooth 1 assignment group.1 exponent

theorem smooth_baseAndExponent {factor : Expr κ} (smooth : factor.SmoothAt 1 assignment) :
    factor.baseAndExponent.1.SmoothAt 1 assignment ∧
      factor.baseAndExponent.2.SmoothAt 1 assignment ∧
        PowerSmooth 1 assignment factor.baseAndExponent.1 factor.baseAndExponent.2 := by
  unfold baseAndExponent
  split
  · cases smooth with
    | pow lower upper power => exact ⟨lower, upper, power⟩
  · exact ⟨smooth, .num 1, powerSmooth_one⟩

theorem smooth_likeBases {operands : List (Expr κ)} (smooth : AllSmooth assignment operands) :
    ∀ group ∈ likeBases operands, GroupSmooth assignment group := by
  intro group member
  rw [likeBases, Grouping.ofPairs_eq] at member
  obtain ⟨key, among, rfl⟩ := List.mem_map.mp member
  obtain ⟨pair, present, rfl⟩ := List.mem_map.mp (Grouping.mem_distinct.mp among)
  have parts (exponent : Expr κ)
      (among : exponent ∈ Grouping.valuesOf pair.1 (operands.map baseAndExponent)) :
      exponent.SmoothAt 1 assignment ∧ PowerSmooth 1 assignment pair.1 exponent := by
    obtain ⟨factor, inside, same⟩ := List.mem_map.mp (Grouping.mem_valuesOf.mp among)
    have split := smooth_baseAndExponent (smooth factor inside)
    rw [same] at split
    exact split.2
  refine ⟨?_, fun exponent among => (parts exponent among).1, ?_,
    fun exponent among => (parts exponent among).2⟩
  · obtain ⟨factor, inside, rfl⟩ := List.mem_map.mp present
    exact (smooth_baseAndExponent (smooth factor inside)).1
  · exact List.ne_nil_of_mem (Grouping.mem_valuesOf.mpr present)

theorem smooth_number (value : κ) : (number value).SmoothAt 1 assignment := .num _

theorem smooth_zero : (zero : Expr κ).SmoothAt 1 assignment := .num 0

theorem smooth_one : (one : Expr κ).SmoothAt 1 assignment := .num 1

theorem AllSmooth.perm {left right : List (Expr κ)} (smooth : AllSmooth assignment left)
    (perm : right.Perm left) : AllSmooth assignment right :=
  fun expr member => smooth expr (perm.mem_iff.mp member)

theorem smooth_ofTerms {terms : List (Expr κ)} (smooth : AllSmooth assignment terms) :
    (ofTerms terms).SmoothAt 1 assignment := by
  unfold ofTerms
  split
  · exact smooth_zero
  · exact smooth _ List.mem_cons_self
  · exact .add (smooth.perm (arrange_perm _))

theorem smooth_ofFactors (coefficient : κ) {operands : List (Expr κ)}
    (smooth : AllSmooth assignment operands) :
    (ofFactors coefficient operands).SmoothAt 1 assignment := by
  have sorted := smooth.perm (arrange_perm operands)
  unfold ofFactors
  split
  · exact smooth_zero
  · generalize arrange operands = arranged at sorted
    split
    · exact smooth_number coefficient
    · exact sorted _ List.mem_cons_self
    · exact .mul sorted
    · exact .mul (List.forall_mem_cons.mpr ⟨smooth_number coefficient, sorted⟩)

structure Smoothing (assignment : Assignment) (fuel : Nat) : Prop where
  sum : ∀ {terms : List (Expr κ)}, AllSmooth assignment terms →
    (sumWith fuel terms).SmoothAt 1 assignment
  product : ∀ {operands : List (Expr κ)}, AllSmooth assignment operands →
    (productWith fuel operands).SmoothAt 1 assignment
  power : ∀ {base exponent : Expr κ}, base.SmoothAt 1 assignment →
    exponent.SmoothAt 1 assignment → PowerSmooth 1 assignment base exponent →
    (powerWith fuel base exponent).SmoothAt 1 assignment

theorem Smoothing.sum_succ {fuel : Nat} (smoothing : Smoothing (κ := κ) assignment fuel)
    {terms : List (Expr κ)} (smooth : AllSmooth assignment terms) :
    (sumWith (fuel + 1) terms).SmoothAt 1 assignment := by
  have groups := smooth_likeTerms smooth.addends.symbolic
  rw [sumWith]
  refine smooth_ofTerms (AllSmooth.append ?_ ?_)
  · intro term member
    obtain ⟨group, among, scaled⟩ := List.mem_filterMap.mp member
    have rest := groups group among
    unfold scaledTerm? at scaled
    split at scaled
    · cases scaled
    split at scaled
    · cases scaled
      exact rest
    · cases scaled
      exact smoothing.product (List.forall_mem_cons.mpr ⟨smooth_number _, by simpa using rest⟩)
  · intro term member
    split at member
    · cases member
    · rw [List.mem_singleton.mp member]
      exact smooth_number _

theorem Smoothing.product_succ {fuel : Nat} (smoothing : Smoothing (κ := κ) assignment fuel)
    {operands : List (Expr κ)} (smooth : AllSmooth assignment operands) :
    (productWith (fuel + 1) operands).SmoothAt 1 assignment := by
  have powers : AllSmooth assignment ((likeBases (symbolicIn (factorsOf operands))).map
      fun group => powerWith fuel group.1 (sumWith fuel group.2)) := by
    refine List.forall_mem_map.mpr fun group member => ?_
    have parts := smooth_likeBases smooth.factors.symbolic group member
    exact smoothing.power parts.base (smoothing.sum parts.exponents)
      (powerSmooth_sum fuel parts.nonempty parts.power)
  rw [productWith]
  simp only
  split
  · exact smooth_zero
  · exact smooth_ofFactors _ powers.pieces.symbolic

theorem Smoothing.power_succ {fuel : Nat} (smoothing : Smoothing (κ := κ) assignment fuel)
    {base exponent : Expr κ} (lower : base.SmoothAt 1 assignment)
    (upper : exponent.SmoothAt 1 assignment) (power : PowerSmooth 1 assignment base exponent) :
    (powerWith (fuel + 1) base exponent).SmoothAt 1 assignment := by
  unfold powerWith
  split
  · exact smooth_one
  split
  · exact lower
  split
  · exact smooth_number _
  split
  · rename_i inner innerExponent numeric _
    have takes := whole_exponent numeric upper.takes ▸ upper.takes
    have closed := closed_of_whole numeric
    cases lower with
    | pow innerLower innerUpper innerPower =>
        refine smoothing.power innerLower ?_
          (powerSmooth_product fuel innerLower.defined innerPower closed takes power)
        exact smoothing.product (List.forall_mem_cons.mpr ⟨innerUpper, by simpa using upper⟩)
  · rename_i operands numeric _
    have takes := whole_exponent numeric upper.takes ▸ upper.takes
    have closed := closed_of_whole numeric
    cases lower with
    | mul each =>
        refine smoothing.product (List.forall_mem_map.mpr fun factor member => ?_)
        exact smoothing.power (each factor member) upper
          (powerSmooth_factor power closed takes each member)
  · split
    · exact smooth_one
    · exact .pow lower upper power

theorem smoothing (assignment : Assignment) (fuel : Nat) : Smoothing (κ := κ) assignment fuel := by
  induction fuel with
  | zero =>
      constructor
      · intro terms smooth
        rw [sumWith]
        exact .add smooth
      · intro operands smooth
        rw [productWith]
        exact .mul smooth
      · intro base exponent lower upper power
        rw [powerWith]
        exact .pow lower upper power
  | succ fuel ih => exact ⟨ih.sum_succ, ih.product_succ, ih.power_succ⟩

theorem smooth_sum {terms : List (Expr κ)} (smooth : AllSmooth assignment terms) :
    (sum terms).SmoothAt 1 assignment := (smoothing assignment _).sum smooth

theorem smooth_product {operands : List (Expr κ)} (smooth : AllSmooth assignment operands) :
    (product operands).SmoothAt 1 assignment := (smoothing assignment _).product smooth

theorem smooth_power {base exponent : Expr κ} (lower : base.SmoothAt 1 assignment)
    (upper : exponent.SmoothAt 1 assignment) (power : PowerSmooth 1 assignment base exponent) :
    (Expr.power base exponent).SmoothAt 1 assignment :=
  (smoothing assignment _).power lower upper power

theorem smooth_apply {function : Elementary} {argument : Expr κ}
    (operand : argument.SmoothAt 1 assignment)
    (smooth : function.SmoothAt (argument.valueIn assignment)) :
    (apply function argument).SmoothAt 1 assignment := by
  unfold apply
  simp only
  split
  · exact smooth_number _
  · exact .call operand smooth

open Classical in
theorem smooth_choose {relation : Relation} {left right chosen otherwise : Expr κ}
    (lhs : left.SmoothAt 1 assignment) (rhs : right.SmoothAt 1 assignment)
    (apart : left.valueIn assignment ≠ right.valueIn assignment)
    (taken : (if relation.Holds (left.valueIn assignment) (right.valueIn assignment) then chosen
      else otherwise).SmoothAt 1 assignment) :
    (choose relation left right chosen otherwise).SmoothAt 1 assignment := by
  unfold choose
  split
  · rename_i l r
    have first : (num l).valueIn assignment = Exact.real l := ((takes_num l _).mpr rfl).valueIn_eq
    have second : (num r).valueIn assignment = Exact.real r := ((takes_num r _).mpr rfl).valueIn_eq
    rw [first, second] at taken
    by_cases holds : relation.Holds (Exact.real l) (Exact.real r)
    · rw [if_pos holds] at taken
      rwa [if_pos ((holds_iff relation l r).mpr holds)]
    · rw [if_neg holds] at taken
      rwa [if_neg fun computed => holds ((holds_iff relation l r).mp computed)]
  · split
    · rename_i same
      rw [eq_of_beq same, ite_self] at taken
      rwa [eq_of_beq same]
    · exact .cond lhs rhs apart taken

section

variable {left right expr : Expr κ}

theorem smooth_plus (first : left.SmoothAt 1 assignment) (second : right.SmoothAt 1 assignment) :
    (left + right).SmoothAt 1 assignment :=
  smooth_sum (List.forall_mem_cons.mpr ⟨first, by simpa using second⟩)

theorem smooth_times (first : left.SmoothAt 1 assignment) (second : right.SmoothAt 1 assignment) :
    (left * right).SmoothAt 1 assignment :=
  smooth_product (List.forall_mem_cons.mpr ⟨first, by simpa using second⟩)

theorem smooth_negate (smooth : expr.SmoothAt 1 assignment) : (-expr).SmoothAt 1 assignment :=
  smooth_times (smooth_number _) smooth

theorem smooth_minus (first : left.SmoothAt 1 assignment) (second : right.SmoothAt 1 assignment) :
    (left - right).SmoothAt 1 assignment :=
  smooth_plus first (smooth_negate second)

theorem smooth_reciprocal (smooth : expr.SmoothAt 1 assignment)
    (nonzero : expr.valueIn assignment ≠ 0) : expr.reciprocal.SmoothAt 1 assignment := by
  have minusOne : Exact.real (-1 : κ) = ((-1 : ℤ) : ℝ) := by
    rw [Exact.real_neg, Exact.real_one]
    norm_num
  exact smooth_power smooth (smooth_number _)
    (powerSmooth_number minusOne fun zero => absurd zero nonzero)

theorem smooth_inverseRoot (smooth : expr.SmoothAt 1 assignment)
    (positive : 0 < expr.valueIn assignment) : expr.squareRoot.reciprocal.SmoothAt 1 assignment := by
  have root : expr.squareRoot.Takes assignment (Real.sqrt (expr.valueIn assignment)) :=
    takes_apply smooth.takes (if_pos positive.le)
  refine smooth_reciprocal (smooth_apply smooth positive) ?_
  rw [root.valueIn_eq]
  exact (Real.sqrt_pos.mpr positive).ne'

theorem smooth_dividedBy (first : left.SmoothAt 1 assignment)
    (second : right.SmoothAt 1 assignment) (nonzero : right.valueIn assignment ≠ 0) :
    (left / right).SmoothAt 1 assignment :=
  smooth_times first (smooth_reciprocal second nonzero)

theorem smooth_square (smooth : expr.SmoothAt 1 assignment) : expr.square.SmoothAt 1 assignment :=
  smooth_power smooth (smooth_number _)
    (powerSmooth_number (Exact.real_ofInt 2) fun _ => one_le_two)

end

theorem smooth_slope [ExactDivision κ] {function : Elementary} {argument : Expr κ}
    (operand : argument.SmoothAt 1 assignment)
    (smooth : function.SmoothAt (argument.valueIn assignment)) :
    (slope function argument).SmoothAt 1 assignment := by
  have takes := operand.takes
  have arc (above : -1 < argument.valueIn assignment) (below : argument.valueIn assignment < 1) :
      (one - argument.square).squareRoot.reciprocal.SmoothAt 1 assignment := by
    refine smooth_inverseRoot (smooth_minus smooth_one (smooth_square operand)) ?_
    rw [(takes_minus takes_one (takes_square takes)).valueIn_eq]
    nlinarith
  cases function with
  | sin => exact smooth_apply operand trivial
  | cos => exact smooth_negate (smooth_apply operand trivial)
  | tan => exact smooth_plus smooth_one (smooth_square (smooth_apply operand smooth))
  | asin => exact arc smooth.1 smooth.2
  | acos => exact smooth_negate (arc smooth.1 smooth.2)
  | atan =>
      refine smooth_reciprocal (smooth_plus smooth_one (smooth_square operand)) ?_
      rw [(takes_plus takes_one (takes_square takes)).valueIn_eq]
      positivity
  | sqrt => exact smooth_times (smooth_number _) (smooth_inverseRoot operand smooth)
  | abs => exact smooth_apply operand smooth
  | sign => exact smooth_zero
  | exp => exact smooth_apply operand trivial
  | ln => exact smooth_reciprocal operand (ne_of_gt smooth)

theorem smooth_productRule {rate : Expr κ → Expr κ} {before operands : List (Expr κ)}
    (passed : AllSmooth assignment before) (smooth : AllSmooth assignment operands)
    (rates : ∀ operand ∈ operands, (rate operand).SmoothAt 1 assignment) :
    AllSmooth assignment
      (productRule before (operands.map fun operand => (operand, rate operand))) := by
  induction operands generalizing before with
  | nil => exact fun _ member => absurd member List.not_mem_nil
  | cons head tail ih =>
      rw [AllSmooth, List.forall_mem_cons] at smooth
      rw [List.forall_mem_cons] at rates
      have one : AllSmooth assignment [head] := by simpa [AllSmooth] using smooth.1
      have later := ih (passed.append one) smooth.2 rates.2
      rw [List.map_cons, productRule]
      split
      · exact later
      · refine List.forall_mem_cons.mpr ⟨smooth_product ?_, later⟩
        have rate : AllSmooth assignment [rate head] := by simpa [AllSmooth] using rates.1
        have rest : AllSmooth assignment tail := smooth.2
        exact (passed.append (by simpa [Function.comp_def] using rest)).append rate

theorem powerSmooth_lower {base exponent : Expr κ}
    (smooth : PowerSmooth 2 assignment base exponent) :
    PowerSmooth 1 assignment base (exponent - one) := by
  refine smooth.imp_right fun ⟨whole, closed, takes, least⟩ => ⟨whole - 1, ?_, ?_, fun zero => ?_⟩
  · exact readsOnly_minus closed readsOnly_one
  · have lowered := takes_minus takes takes_one
    push_cast
    exact lowered
  · have least := least zero
    push_cast at least ⊢
    omega

theorem smooth_powerRule {base exponent baseRate exponentRate : Expr κ}
    (lower : base.SmoothAt 1 assignment) (upper : exponent.SmoothAt 1 assignment)
    (power : PowerSmooth 2 assignment base exponent) (first : baseRate.SmoothAt 1 assignment)
    (second : exponentRate.SmoothAt 1 assignment)
    (steady : ¬0 < base.valueIn assignment → exponentRate.isZero = true) :
    (powerRule base exponent baseRate exponentRate).SmoothAt 1 assignment := by
  unfold powerRule
  split
  · split
    · exact smooth_zero
    · have lowered := smooth_power lower (smooth_minus upper smooth_one) (powerSmooth_lower power)
      refine smooth_product (List.forall_mem_cons.mpr ⟨upper, ?_⟩)
      simpa using ⟨lowered, first⟩
  · rename_i varies
    have positive : 0 < base.valueIn assignment := not_not.mp fun flat => varies (steady flat)
    have logarithm : (apply .ln base).SmoothAt 1 assignment := smooth_apply lower positive
    refine smooth_times (.pow lower upper (.inl positive)) (smooth_plus ?_ ?_)
    · exact smooth_times second logarithm
    · exact smooth_dividedBy (smooth_times upper first) lower positive.ne'

theorem smooth_angleRule {y x yRate xRate : Expr κ} (ordinate : y.SmoothAt 1 assignment)
    (abscissa : x.SmoothAt 1 assignment)
    (off : OffCut (y.valueIn assignment) (x.valueIn assignment))
    (first : yRate.SmoothAt 1 assignment) (second : xRate.SmoothAt 1 assignment) :
    (angleRule y x yRate xRate).SmoothAt 1 assignment := by
  unfold angleRule
  split
  · exact smooth_zero
  · have turned := smooth_minus (smooth_times abscissa first) (smooth_times ordinate second)
    have distance := takes_plus (takes_square abscissa.takes) (takes_square ordinate.takes)
    refine smooth_dividedBy turned (smooth_plus (smooth_square abscissa) (smooth_square ordinate)) ?_
    rw [distance.valueIn_eq]
    exact off.positive.ne'

theorem SmoothAt.derivative [ExactDivision κ] {expr : Expr κ} (smooth : expr.SmoothAt 2 assignment)
    (unknown : Atom) : (expr.derivative unknown).SmoothAt 1 assignment := by
  induction smooth with
  | num =>
      rw [derivative_eq]
      exact smooth_zero
  | @atom symbol =>
      rw [derivative_eq, rate]
      split
      · exact smooth_one
      · exact smooth_zero
  | add _ ih =>
      rw [derivative_eq]
      exact smooth_sum (List.forall_mem_map.mpr ih)
  | @mul operands each ih =>
      rw [derivative_eq, rate, children, ← List.map_prod_left_eq_zip]
      have nothing : AllSmooth assignment ([] : List (Expr κ)) :=
        fun operand member => by cases member
      exact smooth_sum (smooth_productRule nothing
        (fun operand member => (each operand member).mono one_le_two) ih)
  | @pow base exponent lower upper power first second =>
      rw [derivative_eq]
      refine smooth_powerRule (lower.mono one_le_two) (upper.mono one_le_two) power first second ?_
      intro flat
      obtain ⟨_, closed, _⟩ := power.resolve_left flat
      rw [closed.derivative_eq]
      exact isZero_zero
  | call operand smooth rate =>
      rw [derivative_eq]
      simp only [Expr.rate, children, List.map_cons, List.map_nil]
      split
      · exact smooth_zero
      · exact smooth_times (smooth_slope (operand.mono one_le_two) smooth) rate
  | angle ordinate abscissa off first second =>
      rw [derivative_eq]
      exact smooth_angleRule (ordinate.mono one_le_two) (abscissa.mono one_le_two) off first second
  | cond lhs rhs apart _ _ _ taken =>
      rw [derivative_eq]
      rw [apply_ite (Expr.derivative unknown)] at taken
      exact smooth_choose (lhs.mono one_le_two) (rhs.mono one_le_two) apart taken

end Mechanism.Expr
