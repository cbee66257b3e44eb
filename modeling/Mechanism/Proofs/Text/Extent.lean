import Mechanism.Expr.Text
import Mechanism.Proofs.Expr.Constructed
import Mechanism.Proofs.Expr.Numerals
import Mechanism.Proofs.Expr.Regrouping
import Mechanism.Proofs.Text.Rounds

/-!
How far the constructors extend what they are given. The rounds that are counted down always
suffice, and then a sum or a product is no more extensive than its operands together, and a power
no more than it would be with nothing folded. So the extent of an expression bounds the depth to
which its text is written.
-/

namespace Mechanism.Expr

variable {κ : Type} [Scalar κ]

/-! ### Extents -/

theorem extent_eq (expr : Expr κ) : expr.extent = extentAt expr (expr.children.map extent) :=
  fold_eq extentAt expr

@[simp] theorem extent_num (value : κ) : (num value).extent = 1 := extent_eq _

@[simp] theorem extent_number (value : κ) : (number value).extent = 1 := extent_eq _

@[simp] theorem extent_one : (one : Expr κ).extent = 1 := extent_eq _

@[simp] theorem extent_zero : (zero : Expr κ).extent = 1 := extent_eq _

theorem extent_add (terms : List (Expr κ)) : (add terms).extent = weightIn extent terms := by
  rw [extent_eq, extentAt, total_eq]
  rfl

theorem extent_mul (operands : List (Expr κ)) :
    (mul operands).extent = weightIn extent operands := by
  rw [extent_eq, extentAt, total_eq]
  rfl

@[simp] theorem extent_atom (symbol : Atom) : (atom symbol : Expr κ).extent = 1 := extent_eq _

theorem extent_call (function : Elementary) (argument : Expr κ) :
    (call function argument).extent = 1 + argument.extent := extent_eq _

theorem extent_angle (y x : Expr κ) : (angle y x).extent = 1 + (y.extent + x.extent) := extent_eq _

theorem extent_cond (relation : Relation) (left right chosen otherwise : Expr κ) :
    (cond relation left right chosen otherwise).extent =
      1 + (left.extent + (right.extent + (chosen.extent + otherwise.extent))) := extent_eq _

theorem extent_pow (base exponent : Expr κ) :
    (pow base exponent).extent = base.extent * (1 + exponent.extent) := extent_eq _

theorem weightIn_addends (expr : Expr κ) : weightIn extent expr.addends = expr.extent := by
  induction expr using induct with
  | step expr ih =>
      cases expr with
      | add terms =>
          rw [addends, addendsOf_eq, extent_add]
          exact weightIn_flatMap extent addends terms ih
      | _ => simp [addends]

theorem weightIn_factors (expr : Expr κ) : weightIn extent expr.factors = expr.extent := by
  induction expr using induct with
  | step expr ih =>
      cases expr with
      | mul operands =>
          rw [factors, factorsOf_eq, extent_mul]
          exact weightIn_flatMap extent factors operands ih
      | _ => simp [factors]

theorem weightIn_addendsOf (terms : List (Expr κ)) :
    weightIn extent (addendsOf terms) = weightIn extent terms := by
  rw [addendsOf_eq]
  exact weightIn_flatMap extent addends terms fun term _ => weightIn_addends term

theorem weightIn_factorsOf (operands : List (Expr κ)) :
    weightIn extent (factorsOf operands) = weightIn extent operands := by
  rw [factorsOf_eq]
  exact weightIn_flatMap extent factors operands fun operand _ => weightIn_factors operand

theorem weightIn_pieces (expr : Expr κ) : weightIn extent (pieces expr) = expr.extent := by
  cases expr <;> simp [pieces, extent_mul]

theorem le_weightIn {exprs : List (Expr κ)} {expr : Expr κ} (member : expr ∈ exprs) :
    expr.extent ≤ weightIn extent exprs :=
  List.single_le_sum (fun _ _ => Nat.zero_le _) _ (List.mem_map_of_mem member)

theorem lt_weightIn {exprs : List (Expr κ)} (several : 2 ≤ exprs.length)
    (positive : ∀ expr ∈ exprs, 1 ≤ expr.extent) {expr : Expr κ} (member : expr ∈ exprs) :
    expr.extent < weightIn extent exprs := by
  obtain ⟨before, after, rfl⟩ := List.append_of_mem member
  obtain ⟨other, among⟩ : ∃ other, other ∈ before ++ after :=
    List.exists_mem_of_length_pos (by simp at several ⊢; omega)
  have present : 1 ≤ other.extent :=
    positive other (List.mem_append.mpr ((List.mem_append.mp among).imp_right
      (List.mem_cons_of_mem _)))
  have least := le_weightIn among
  rw [weightIn_append] at least
  rw [weightIn_append, weightIn_cons]
  omega

theorem weightIn_split (exprs : List (Expr κ)) :
    weightIn extent exprs =
      (numbersIn exprs).length + weightIn extent (symbolicIn exprs) := by
  induction exprs with
  | nil => rfl
  | cons head tail ih =>
      rw [weightIn_cons, ih]
      cases symbolic : head.asNumber? with
      | none => simp [numbersIn, symbolicIn, symbolic, Nat.add_left_comm]
      | some value =>
          obtain rfl := asNumber?_eq_some.mp symbolic
          rw [numbersIn_num, symbolicIn_num, extent_num, List.length_cons]
          omega

theorem WellFormed.extent_pos {expr : Expr κ} (formed : expr.WellFormed) : 1 ≤ expr.extent := by
  induction formed with
  | @node expr several _ ih =>
      cases expr with
      | add terms =>
          obtain ⟨first, member⟩ := List.exists_mem_of_length_pos (Nat.zero_lt_two.trans_le several)
          exact (ih first member).trans ((le_weightIn member).trans_eq (extent_add terms).symm)
      | mul operands =>
          obtain ⟨first, member⟩ := List.exists_mem_of_length_pos
            (Nat.zero_lt_two.trans_le several.1)
          exact (ih first member).trans ((le_weightIn member).trans_eq (extent_mul operands).symm)
      | pow base exponent =>
          rw [extent_pow]
          exact Nat.mul_pos (ih base List.mem_cons_self) (Nat.add_pos_left Nat.one_pos _)
      | num value => exact (extent_num value).ge
      | atom symbol => exact (extent_atom symbol).ge
      | call function argument => exact extent_call function argument ▸ Nat.le_add_right 1 _
      | angle y x => exact extent_angle y x ▸ Nat.le_add_right 1 _
      | cond relation left right chosen otherwise =>
          exact extent_cond relation left right chosen otherwise ▸ Nat.le_add_right 1 _

theorem WellFormed.extent_lt {expr operand : Expr κ} (formed : expr.WellFormed)
    (member : operand ∈ expr.children) : operand.extent < expr.extent := by
  have positive : ∀ child ∈ expr.children, 1 ≤ child.extent :=
    fun child among => (formed.child among).extent_pos
  cases expr with
  | add terms => exact extent_add terms ▸ lt_weightIn formed.several positive member
  | mul operands => exact extent_mul operands ▸ lt_weightIn formed.several.1 positive member
  | pow base exponent =>
      have first : 1 ≤ base.extent := positive base List.mem_cons_self
      have second : 1 ≤ exponent.extent :=
        positive exponent (List.mem_cons_of_mem _ List.mem_cons_self)
      rw [extent_pow, Nat.mul_add]
      have wide := Nat.mul_le_mul first (le_refl exponent.extent)
      have long := Nat.mul_le_mul (le_refl base.extent) second
      rcases List.mem_pair.mp member with rfl | rfl <;> omega
  | num | atom => cases member
  | call function argument =>
      rw [extent_call, List.mem_singleton.mp member]
      omega
  | angle y x =>
      rw [extent_angle]
      rcases List.mem_pair.mp member with rfl | rfl <;> omega
  | cond relation left right chosen otherwise =>
      rw [extent_cond]
      simp only [children, List.mem_cons, List.not_mem_nil, or_false] at member
      rcases member with rfl | rfl | rfl | rfl <;> omega

theorem weightIn_filterMap_le {α : Type} {items : List α} {change : α → Option (Expr κ)}
    {bound : α → Nat}
    (each : ∀ item ∈ items, ∀ expr, change item = some expr → expr.extent ≤ bound item) :
    weightIn extent (items.filterMap change) ≤ (items.map bound).sum := by
  induction items with
  | nil => exact le_rfl
  | cons head tail ih =>
      obtain ⟨here, later⟩ := List.forall_mem_cons.mp each
      have rest := ih later
      rw [List.map_cons, List.sum_cons]
      cases changed : change head with
      | none =>
          rw [List.filterMap_cons_none changed]
          omega
      | some expr =>
          have first := here expr changed
          rw [List.filterMap_cons_some changed, weightIn_cons]
          omega

/-! ### Assembled sums and products -/

theorem extent_ofTerms_le (terms : List (Expr κ)) :
    (ofTerms terms).extent ≤ max 1 (weightIn extent terms) := by
  unfold ofTerms
  split
  · exact extent_zero.le.trans (le_max_left _ _)
  · simp
  · rw [extent_add, weightIn_perm extent (arrange_perm _)]
    exact le_max_right _ _

theorem extent_ofFactors_le (coefficient : κ) (operands : List (Expr κ)) :
    (ofFactors coefficient operands).extent ≤
      max 1 (weightIn extent operands + if Scalar.isOne coefficient then 0 else 1) := by
  have sorted := weightIn_perm extent (arrange_perm operands)
  rw [← sorted]
  unfold ofFactors
  generalize arrange operands = arranged
  split
  · exact extent_zero.le.trans (le_max_left _ _)
  · split
    · exact (extent_number coefficient).le.trans (le_max_left _ _)
    · simp
    · rename_i isOne
      rw [extent_mul, isOne]
      exact le_max_right _ _
    · rename_i notOne
      rw [extent_mul, weightIn_cons, extent_number, notOne, if_neg Bool.false_ne_true]
      omega

/-! ### Like terms and like bases -/

/-- The extent of a term with a coefficient; that of one is not written. -/
def cost (pair : Expr κ × κ) : Nat := pair.1.extent + if Scalar.isOne pair.2 then 0 else 1

/-- What a power adds to the extent of its base: that of an exponent of one is not written. -/
def share (exponent : Expr κ) : Nat := if exponent.isOne then 1 else 1 + exponent.extent

theorem share_pos (exponent : Expr κ) : 1 ≤ share exponent := by
  unfold share
  split <;> omega

theorem share_le (exponent : Expr κ) : share exponent ≤ 1 + exponent.extent := by
  unfold share
  split <;> omega

section Exact

variable [Exact κ]

theorem unit_isOne : Scalar.isOne (1 : κ) = true := (isOne_iff 1).mpr Exact.real_one

theorem null_isZero : Scalar.isZero (0 : κ) = true := (isZero_iff 0).mpr Exact.real_zero

omit [Exact κ] in
theorem splitCoefficient_cases {term : Expr κ} (symbolic : term.asNumber? = none) :
    term.extent = 1 + term.splitCoefficient.2.extent ∨ term.splitCoefficient = (1, term) := by
  unfold splitCoefficient
  split
  · cases symbolic
  · left
    simp only [extent_mul, weightIn_cons, weightIn_nil, extent_num, Nat.add_zero]
  · left
    simp only [extent_mul, weightIn_cons, extent_num]
  · exact Or.inr rfl

theorem cost_asPair_le {term : Expr κ} (symbolic : term.asNumber? = none) :
    cost (asPair term) ≤ term.extent := by
  unfold cost asPair
  rcases splitCoefficient_cases symbolic with written | plain
  · rw [written]
    split <;> simp only <;> omega
  · rw [plain, unit_isOne, if_pos rfl, Nat.add_zero]

/-- Like terms cost no more together than one by one: two of them make up for a coefficient. -/
theorem cost_total_le {rest : Expr κ} (positive : 1 ≤ rest.extent) {coefficients : List κ}
    (present : coefficients ≠ []) :
    cost (rest, coefficients.foldl (· + ·) 0) ≤
      (coefficients.map fun coefficient => cost (rest, coefficient)).sum := by
  by_cases allOne : ∀ coefficient ∈ coefficients, Scalar.isOne coefficient = true
  · have alike : (coefficients.map fun coefficient => cost (rest, coefficient)) =
        coefficients.map fun _ => rest.extent :=
      List.map_congr_left fun coefficient member => by
        rw [cost, allOne coefficient member, if_pos rfl, Nat.add_zero]
    rw [alike, List.map_const', List.sum_replicate, smul_eq_mul]
    match coefficients, present with
    | [single], _ =>
        have isOne : Scalar.isOne (0 + single) = true := by
          rw [isOne_iff, Exact.real_add, Exact.real_zero, zero_add, ← isOne_iff]
          exact allOne single List.mem_cons_self
        simp [cost, isOne]
    | first :: second :: others, _ =>
        have several : 2 * rest.extent ≤ (first :: second :: others).length * rest.extent :=
          Nat.mul_le_mul_right _ (by simp)
        refine le_trans ?_ several
        unfold cost
        split <;> simp only <;> omega
  · simp only [not_forall] at allOne
    obtain ⟨other, member, notOne⟩ := allOne
    have alone : cost (rest, other) = rest.extent + 1 := by rw [cost, if_neg notOne]
    have among : cost (rest, other) ≤
        (coefficients.map fun coefficient => cost (rest, coefficient)).sum :=
      List.single_le_sum (fun _ _ => Nat.zero_le _) _ (List.mem_map_of_mem member)
    refine le_trans ?_ among
    rw [alone, cost]
    split <;> simp only <;> omega

theorem likeTerms_cost_le {terms : List (Expr κ)}
    (symbolic : ∀ term ∈ terms, term.asNumber? = none)
    (positive : ∀ term ∈ terms, 1 ≤ term.splitCoefficient.2.extent) :
    ((likeTerms terms).map cost).sum ≤ weightIn extent terms := by
  have each : ((terms.map asPair).map cost).sum ≤ weightIn extent terms := by
    rw [List.map_map]
    exact List.sum_le_sum fun term member => cost_asPair_le (symbolic term member)
  refine le_trans ?_ each
  rw [← Grouping.sum_groups (terms.map asPair) cost, likeTerms_eq, List.map_map, List.map_map]
  refine List.sum_le_sum fun rest member => ?_
  obtain ⟨term, among, rfl⟩ := List.mem_map.mp (Grouping.mem_distinct.mp member)
  have here : asPair term ∈ terms.map asPair := List.mem_map_of_mem among
  exact cost_total_le (positive term among) (List.ne_nil_of_mem (Grouping.mem_valuesOf.mpr here))

theorem raise_le (leaf : Expr κ) :
    leaf.baseAndExponent.1.extent * share leaf.baseAndExponent.2 ≤ leaf.extent := by
  unfold baseAndExponent
  split
  · rename_i base exponent
    exact extent_pow base exponent ▸ Nat.mul_le_mul_left _ (share_le exponent)
  · have plain : share (one : Expr κ) = 1 := if_pos unit_isOne
    rw [plain, Nat.mul_one]

theorem likeBases_raise_le (leaves : List (Expr κ)) :
    ((likeBases leaves).map fun group => group.1.extent * (group.2.map share).sum).sum ≤
      weightIn extent leaves := by
  have each : ((leaves.map baseAndExponent).map fun pair => pair.1.extent * share pair.2).sum ≤
      weightIn extent leaves := by
    rw [List.map_map]
    exact List.sum_le_sum fun leaf _ => raise_le leaf
  refine le_of_eq_of_le ?_ each
  rw [← Grouping.sum_groups (leaves.map baseAndExponent) fun pair => pair.1.extent * share pair.2,
    likeBases, Grouping.ofPairs_eq, List.map_map]
  exact congrArg List.sum (List.map_congr_left fun base _ => (List.sum_map_mul_left ..).symm)

omit [Exact κ] in
theorem sumWith_numerals (rounds : Nat) {terms : List (Expr κ)}
    (numerals : ∀ term ∈ terms, ∃ value, term = num value) :
    ∃ value, sumWith (rounds + 1) terms = num value := by
  rw [sumWith, symbolicIn_numerals numerals]
  generalize (numbersIn (addendsOf terms)).foldl (· + ·) 0 = constant
  cases Scalar.isZero constant with
  | true => exact ⟨0, rfl⟩
  | false => exact ⟨Scalar.unsigned constant, rfl⟩

omit [Exact κ] in
theorem isOne_numeral {expr : Expr κ} (isOne : expr.isOne = true) : ∃ value, expr = num value := by
  obtain ⟨value, numeric, _⟩ := (Option.any_eq_true _ _).mp isOne
  exact ⟨value, asNumber?_eq_some.mp numeric⟩

omit [Exact κ] in
theorem extent_le_share (exponent : Expr κ) : exponent.extent ≤ share exponent := by
  unfold share
  split
  · rename_i isOne
    obtain ⟨value, rfl⟩ := isOne_numeral isOne
    exact (extent_num value).le
  · exact Nat.le_add_left _ 1

omit [Exact κ] in
theorem weightIn_lt_shares {exponents : List (Expr κ)} {other : Expr κ} (member : other ∈ exponents)
    (notOne : ¬ other.isOne = true) : weightIn extent exponents < (exponents.map share).sum := by
  have each (some : List (Expr κ)) : weightIn extent some ≤ (some.map share).sum :=
    List.sum_le_sum fun exponent _ => extent_le_share exponent
  have written : share other = 1 + other.extent := if_neg notOne
  obtain ⟨before, after, rfl⟩ := List.append_of_mem member
  have first := each before
  have last := each after
  simp only [weightIn_append, weightIn_cons, List.map_append, List.map_cons, List.sum_append,
    List.sum_cons, written]
  omega

theorem isOne_sumWith (rounds : Nat) {exponent : Expr κ} (isOne : exponent.isOne = true) :
    (sumWith (rounds + 1) [exponent]).isOne = true := by
  obtain ⟨value, isNumber⟩ :=
    sumWith_numerals rounds (List.forall_mem_singleton.mpr (isOne_numeral isOne))
  have takes : (sumWith (rounds + 1) [exponent]).Takes (fun _ => none) 1 :=
    (sound _ _).sum (sumsTo_singleton.mpr (isOne_takes isOne))
  rw [isNumber, takes_num, ← isOne_iff] at takes
  rwa [isNumber]

theorem isOne_foldl_mul (numbers : List κ) :
    (if Scalar.isOne (numbers.foldl (· * ·) 1) then 0 else 1) ≤ numbers.length := by
  cases numbers with
  | nil => simp [unit_isOne]
  | cons head tail => split <;> simp

/-! ### Rounds that suffice -/

/-- An expression that asks for no more rounds, and has no greater extent, than there may be. -/
structure Bounded (most bound : Nat) (expr : Expr κ) : Prop where
  fits : Fits most expr
  extent_le : expr.extent ≤ bound

omit [Exact κ] in
theorem Bounded.number {most bound : Nat} (value : κ) (positive : 1 ≤ bound) :
    Bounded most bound (number value) :=
  ⟨.number value, (extent_number value).trans_le positive⟩

/-- The rounds suffice for operands that do not ask for more of them. -/
structure Sufficient (κ : Type) [Scalar κ] (rounds : Nat) : Prop where
  sum : ∀ {most : Nat} {terms : List (Expr κ)}, (∀ term ∈ terms, Fits most term) →
    most + 3 ≤ rounds → Bounded most (max 1 (weightIn extent terms)) (sumWith rounds terms)
  product : ∀ {most : Nat} {operands : List (Expr κ)}, (∀ operand ∈ operands, Fits most operand) →
    most + 2 ≤ rounds →
    Bounded most (max 1 (weightIn extent operands)) (productWith rounds operands)
  power : ∀ {most : Nat} {base exponent : Expr κ}, FitsBase most base → FitsExponent most exponent →
    1 ≤ rounds → (base.Passes → 2 * base.nesting + 1 ≤ rounds) →
    Bounded most (base.extent * share exponent) (powerWith rounds base exponent)

namespace Sufficient

variable {rounds most : Nat}

omit [Exact κ] in
theorem scaledTerm (sufficient : Sufficient κ rounds) (enough : most + 2 ≤ rounds) {group : Expr κ × κ}
    (fits : Fits most group.1) {term : Expr κ}
    (scaled : scaledTerm? (productWith rounds) group = some term) :
    Bounded most (cost group) term := by
  unfold scaledTerm? at scaled
  split at scaled
  · cases scaled
  split at scaled
  · rename_i isOne
    cases scaled
    exact ⟨fits, Nat.le_add_right _ _⟩
  · rename_i notOne
    cases scaled
    have bounded := sufficient.product (List.forall_mem_cons.mpr
      ⟨.number group.2, List.forall_mem_singleton.mpr fits⟩) enough
    refine ⟨bounded.fits, bounded.extent_le.trans ?_⟩
    rw [weightIn_cons, weightIn_cons, weightIn_nil, extent_number, cost, if_neg notOne]
    omega

theorem sum_succ (sufficient : Sufficient κ rounds) {terms : List (Expr κ)}
    (fits : ∀ term ∈ terms, Fits most term) (enough : most + 2 ≤ rounds) :
    Bounded most (max 1 (weightIn extent terms)) (sumWith (rounds + 1) terms) := by
  have leaves := Fits.addendsOf fits
  have whole := weightIn_split (addendsOf terms)
  rw [weightIn_addendsOf] at whole
  rw [sumWith]
  generalize addendsOf terms = inside at *
  have rests : ∀ term ∈ symbolicIn inside, Fits most term.splitCoefficient.2 :=
    fun term member => (leaves term (List.mem_filter.mp member).1).splitCoefficient
  have groups : ∀ group ∈ likeTerms (symbolicIn inside), Fits most group.1 := by
    intro group member
    obtain ⟨term, among, same⟩ := mem_likeTerms member
    exact same ▸ rests term among
  have costs := likeTerms_cost_le (fun term => asNumber?_of_symbolic)
    fun term member => (rests term member).formed.extent_pos
  generalize likeTerms (symbolicIn inside) = collected at groups costs
  have scaled : ∀ term ∈ collected.filterMap (scaledTerm? (productWith rounds)),
      Fits most term := by
    intro term member
    obtain ⟨group, among, found⟩ := List.mem_filterMap.mp member
    exact (sufficient.scaledTerm enough (groups group among) found).fits
  have extents : weightIn extent (collected.filterMap (scaledTerm? (productWith rounds))) ≤
      (collected.map cost).sum :=
    weightIn_filterMap_le fun group among _ found =>
      (sufficient.scaledTerm enough (groups group among) found).extent_le
  have constant : weightIn extent (if Scalar.isZero ((numbersIn inside).foldl (· + ·) 0) then []
      else [number ((numbersIn inside).foldl (· + ·) 0)]) ≤ (numbersIn inside).length := by
    cases numbersIn inside with
    | nil => simp [null_isZero]
    | cons => split <;> simp
  refine ⟨Fits.ofTerms (List.forall_mem_append.mpr ⟨scaled, ?_⟩), ?_⟩
  · split
    · exact List.forall_mem_nil _
    · exact List.forall_mem_singleton.mpr (.number _)
  · refine (extent_ofTerms_le _).trans (max_le_max_left 1 ?_)
    rw [weightIn_append]
    omega

/-- The sum of the exponents of one base is an exponent that fits as well, and adds no more to the
extent of the base than they did. -/
theorem exponent (sufficient : Sufficient κ rounds) (enough : most + 1 ≤ rounds)
    {exponents : List (Expr κ)} (present : exponents ≠ [])
    (fits : ∀ exponent ∈ exponents, FitsExponent most exponent) :
    FitsExponent most (sumWith rounds exponents) ∧
      share (sumWith rounds exponents) ≤ (exponents.map share).sum := by
  obtain ⟨rounds, rfl⟩ : ∃ less, rounds = less + 1 := ⟨rounds - 1, by omega⟩
  have bounded : FitsExponent most (sumWith (rounds + 1) exponents) ∧
      (sumWith (rounds + 1) exponents).extent ≤ max 1 (weightIn extent exponents) := by
    by_cases numerals : ∀ exponent ∈ exponents, ∃ value, exponent = num value
    · obtain ⟨value, isNumber⟩ := sumWith_numerals rounds numerals
      rw [isNumber]
      exact ⟨.num value, (extent_num value).trans_le (le_max_left _ _)⟩
    · simp only [not_forall] at numerals
      obtain ⟨other, member, symbolic⟩ := numerals
      have two := (fits other member).two_le (Option.eq_none_iff_forall_ne_some.mpr
        fun value isNumber => symbolic ⟨value, asNumber?_eq_some.mp isNumber⟩)
      obtain ⟨less, rfl⟩ := Nat.exists_eq_add_of_le two
      have sum := sufficient.sum (fun exponent among => (fits exponent among).fits) (by omega)
      exact ⟨.of_fits sum.fits le_rfl, sum.extent_le⟩
  refine ⟨bounded.1, ?_⟩
  by_cases allOne : ∀ exponent ∈ exponents, exponent.isOne = true
  · match exponents, present with
    | [single], _ =>
        have isOne := isOne_sumWith rounds (allOne single List.mem_cons_self)
        rw [share, if_pos isOne]
        simpa using share_pos single
    | first :: second :: others, _ =>
        have numerals : ∀ exponent ∈ first :: second :: others, ∃ value, exponent = num value :=
          fun exponent member => isOne_numeral (allOne exponent member)
        obtain ⟨value, isNumber⟩ := sumWith_numerals rounds numerals
        have least := share_le (sumWith (rounds + 1) (first :: second :: others))
        rw [isNumber, extent_num] at least
        have one := share_pos first
        have two := share_pos second
        rw [isNumber, List.map_cons, List.map_cons, List.sum_cons, List.sum_cons]
        omega
  · simp only [not_forall] at allOne
    obtain ⟨other, member, notOne⟩ := allOne
    have wide := weightIn_lt_shares member notOne
    have present := (fits other member).formed.extent_pos.trans (le_weightIn member)
    have least := share_le (sumWith (rounds + 1) exponents)
    have upper := bounded.2
    omega

theorem product_succ (sufficient : Sufficient κ rounds) {operands : List (Expr κ)}
    (fits : ∀ operand ∈ operands, Fits most operand) (enough : most + 1 ≤ rounds) :
    Bounded most (max 1 (weightIn extent operands)) (productWith (rounds + 1) operands) := by
  have leaves : ∀ leaf ∈ factorsOf operands, Fits most leaf ∧ leaf.label ≠ .mul :=
    fun leaf member => ⟨Fits.factorsOf fits leaf member, flat_factorsOf operands leaf member⟩
  have whole := weightIn_split (factorsOf operands)
  rw [weightIn_factorsOf] at whole
  rw [productWith]
  generalize factorsOf operands = inside at *
  have powers : ∀ group ∈ likeBases (symbolicIn inside),
      Bounded most (group.1.extent * (group.2.map share).sum)
        (powerWith rounds group.1 (sumWith rounds group.2)) := by
    intro group member
    obtain ⟨⟨leaf, among, same⟩, exponents⟩ := mem_likeBases member
    have here : (group.1, leaf.baseAndExponent.2) ∈ (symbolicIn inside).map baseAndExponent :=
      same ▸ List.mem_map_of_mem among
    have base : FitsBase most group.1 := by
      obtain ⟨leafFits, flat⟩ := leaves leaf (List.mem_filter.mp among).1
      exact same ▸ leafFits.base flat
    have present : group.2 ≠ [] :=
      exponents ▸ List.ne_nil_of_mem (Grouping.mem_valuesOf.mpr here)
    obtain ⟨exponent, least⟩ := sufficient.exponent enough present fun exponent inside => by
      obtain ⟨leaf, among, _, rfl⟩ := mem_exponents (exponents ▸ inside)
      exact (leaves leaf (List.mem_filter.mp among).1).1.exponent
    have power := sufficient.power base exponent (by omega) fun passes => by
      have bears := base.toll_le
      rw [toll_of_passes passes] at bears
      omega
    exact ⟨power.fits, power.extent_le.trans (Nat.mul_le_mul_left _ least)⟩
  have raised := likeBases_raise_le (symbolicIn inside)
  generalize likeBases (symbolicIn inside) = groups at powers raised
  have parts : ∀ part ∈ (groups.map fun group =>
      powerWith rounds group.1 (sumWith rounds group.2)).flatMap pieces, Fits most part := by
    intro part member
    obtain ⟨power, among, inside⟩ := List.mem_flatMap.mp member
    obtain ⟨group, known, rfl⟩ := List.mem_map.mp among
    exact (powers group known).fits.pieces part inside
  have extents : weightIn extent ((groups.map fun group =>
      powerWith rounds group.1 (sumWith rounds group.2)).flatMap pieces) ≤
      weightIn extent (symbolicIn inside) := by
    rw [weightIn_flatMap extent pieces _ fun power _ => weightIn_pieces power, weightIn,
      List.map_map]
    exact (List.sum_le_sum fun group known => (powers group known).extent_le).trans raised
  simp only
  generalize (groups.map fun group =>
    powerWith rounds group.1 (sumWith rounds group.2)).flatMap pieces = powers at parts extents
  rw [weightIn_split powers] at extents
  split
  · exact ⟨.num 0, extent_zero.trans_le (le_max_left _ _)⟩
  · refine ⟨.ofFactors _ (fun part member => parts part (List.mem_filter.mp member).1)
      (fun part member => asNumber?_of_symbolic member),
      (extent_ofFactors_le _ _).trans (max_le_max_left 1 ?_)⟩
    have written := isOne_foldl_mul (numbersIn inside ++ numbersIn powers)
    rw [List.foldl_append, List.length_append] at written
    omega

omit [Exact κ] in
theorem power_pow (sufficient : Sufficient κ rounds) {base exponent : Expr κ}
    (fits : FitsBase most (pow base exponent)) (enough : 2 * (pow base exponent).nesting ≤ rounds)
    (value : κ) :
    Bounded most ((pow base exponent).extent * (1 + 1))
      (powerWith rounds base (productWith rounds [exponent, num value])) := by
  have bears := fits.toll_le
  rw [toll_of_passes (Or.inl rfl)] at bears
  rw [nesting_pow] at bears enough
  have first : base.WellFormed := fits.formed.child List.mem_cons_self
  have second : exponent.WellFormed :=
    fits.formed.child (List.mem_cons_of_mem _ List.mem_cons_self)
  have factors : ∀ operand ∈ [exponent, num value], Fits (2 * exponent.nesting) operand :=
    List.forall_mem_cons.mpr ⟨.of_nesting second le_rfl, List.forall_mem_singleton.mpr (.num value)⟩
  have product := sufficient.product factors (by omega)
  have inner : FitsBase most base := .of_nesting first (by omega)
  have power := sufficient.power inner (.of_fits product.fits (by omega)) (by omega)
    (fun _ => by omega)
  have wide := product.extent_le
  rw [weightIn_cons, weightIn_cons, weightIn_nil, extent_num] at wide
  refine ⟨power.fits, power.extent_le.trans ?_⟩
  rw [extent_pow, Nat.mul_assoc]
  have least := share_le (productWith rounds [exponent, num value])
  exact Nat.mul_le_mul_left _ (by omega)

omit [Exact κ] in
theorem power_mul (sufficient : Sufficient κ rounds) {operands : List (Expr κ)}
    (fits : FitsBase most (mul operands)) (enough : 2 * (mul operands).nesting ≤ rounds) (value : κ) :
    Bounded most ((mul operands).extent * (1 + 1))
      (productWith rounds (operands.map fun operand => powerWith rounds operand (num value))) := by
  have bears := fits.toll_le
  rw [toll_of_passes (Or.inr rfl)] at bears
  rw [nesting_mul] at bears enough
  have powers : ∀ operand ∈ operands, Bounded (2 * nestingOf operands) (operand.extent * (1 + 1))
      (powerWith rounds operand (num value)) := by
    intro operand member
    have below := nesting_le_nestingOf member
    have base : FitsBase (2 * nestingOf operands) operand :=
      .of_nesting (fits.formed.child member) (Nat.mul_le_mul_left 2 below)
    have power := sufficient.power base (.num value) (by omega) (fun _ => by omega)
    have least := share_le (num value)
    rw [extent_num] at least
    exact ⟨power.fits, power.extent_le.trans (Nat.mul_le_mul_left _ least)⟩
  have product := sufficient.product
    (List.forall_mem_map.mpr fun operand member => (powers operand member).fits) (by omega)
  have wide : weightIn extent (operands.map fun operand => powerWith rounds operand (num value)) ≤
      (mul operands).extent * (1 + 1) := by
    rw [extent_mul, weightIn, weightIn, List.map_map, ← List.sum_map_mul_right]
    exact List.sum_le_sum fun operand member => (powers operand member).extent_le
  have positive := fits.formed.extent_pos
  exact ⟨product.fits.mono (by omega), product.extent_le.trans (by omega)⟩

omit [Exact κ] in
theorem power_succ (sufficient : Sufficient κ rounds) {base exponent : Expr κ}
    (first : FitsBase most base) (second : FitsExponent most exponent)
    (enough : base.Passes → 2 * base.nesting ≤ rounds) :
    Bounded most (base.extent * share exponent) (powerWith (rounds + 1) base exponent) := by
  have positive : 1 ≤ base.extent * share exponent :=
    Nat.mul_pos first.formed.extent_pos (share_pos exponent)
  have asOne : Bounded most (base.extent * share exponent) one :=
    ⟨Fits.num (1 : κ), extent_one.trans_le positive⟩
  unfold powerWith
  split
  · exact asOne
  split
  · exact ⟨first.fits, Nat.le_mul_of_pos_right _ (share_pos exponent)⟩
  rename_i notOne
  have written : share exponent = 1 + exponent.extent := if_neg notOne
  split
  · exact .number _ positive
  split
  · rename_i inner innerExponent numeric _
    obtain ⟨value, isNumber, _⟩ := Option.bind_eq_some_iff.mp numeric
    obtain rfl := asNumber?_eq_some.mp isNumber
    rw [written, extent_num]
    exact sufficient.power_pow first (enough (Or.inl rfl)) value
  · rename_i operands numeric _
    obtain ⟨value, isNumber, _⟩ := Option.bind_eq_some_iff.mp numeric
    obtain rfl := asNumber?_eq_some.mp isNumber
    rw [written, extent_num]
    exact sufficient.power_mul first (enough (Or.inr rfl)) value
  · split
    · exact asOne
    · exact ⟨.pow first second, by rw [extent_pow, written]⟩

end Sufficient

theorem sufficient (rounds : Nat) : Sufficient κ rounds := by
  induction rounds with
  | zero => exact ⟨fun _ enough => by omega, fun _ enough => by omega, fun _ _ enough => by omega⟩
  | succ rounds ih =>
      exact ⟨fun fits enough => ih.sum_succ fits (by omega),
        fun fits enough => ih.product_succ fits (by omega),
        fun first second _ enough => ih.power_succ first second fun passes => by
          have := enough passes
          omega⟩

/-! ### What the constructors give -/

theorem WellFormed.sum {terms : List (Expr κ)} (formed : ∀ term ∈ terms, term.WellFormed) :
    (sum terms).WellFormed := by
  have fits : ∀ term ∈ terms, Fits (2 * nestingOf terms) term := fun term member =>
    .of_nesting (formed term member) (Nat.mul_le_mul_left 2 (nesting_le_nestingOf member))
  exact ((sufficient (fuelFor (nestingOf terms))).sum fits (by unfold fuelFor; omega)).fits.formed

theorem bounded_product {operands : List (Expr κ)}
    (formed : ∀ operand ∈ operands, operand.WellFormed) :
    Bounded (2 * nestingOf operands) (max 1 (weightIn extent operands)) (product operands) := by
  have fits : ∀ operand ∈ operands, Fits (2 * nestingOf operands) operand := fun operand member =>
    .of_nesting (formed operand member) (Nat.mul_le_mul_left 2 (nesting_le_nestingOf member))
  exact (sufficient (fuelFor (nestingOf operands))).product fits (by unfold fuelFor; omega)

theorem bounded_power {base exponent : Expr κ} (first : base.WellFormed)
    (second : exponent.WellFormed) :
    Bounded (max (2 * base.nesting) (2 + 2 * exponent.nesting)) (base.extent * share exponent)
      (power base exponent) := by
  refine (sufficient _).power (.of_nesting first (le_max_left _ _))
    (.of_fits (.of_nesting second le_rfl) (le_max_right _ _)) ?_ fun _ => ?_
  · exact le_trans (by decide) (Nat.le_add_left 16 _)
  · unfold fuelFor
    omega

theorem WellFormed.product {operands : List (Expr κ)}
    (formed : ∀ operand ∈ operands, operand.WellFormed) : (product operands).WellFormed :=
  (bounded_product formed).fits.formed

theorem WellFormed.power {base exponent : Expr κ} (first : base.WellFormed)
    (second : exponent.WellFormed) : (power base exponent).WellFormed :=
  (bounded_power first second).fits.formed

theorem Call.wellFormed (call : Call κ) (operands : ∀ operand ∈ call.operands, operand.WellFormed) :
    call.result.WellFormed := by
  cases call with
  | sum terms => exact .sum operands
  | product factors => exact .product operands
  | power base exponent =>
      exact .power (operands base List.mem_cons_self)
        (operands exponent (List.mem_cons_of_mem _ List.mem_cons_self))
  | apply function argument =>
      rw [result, Expr.apply]
      split
      · exact .num _
      · exact .node trivial operands
  | angle y x =>
      rw [result]
      unfold Expr.angleOf
      split
      · exact .num _
      · exact .node trivial operands
  | choose relation left right chosen otherwise =>
      simp only [Call.operands, List.forall_mem_cons] at operands
      obtain ⟨first, second, third, fourth, _⟩ := operands
      rw [result]
      unfold Expr.choose
      split
      · split
        · exact third
        · exact fourth
      · split
        · exact third
        · exact .node trivial (by simp [children, first, second, third, fourth])

theorem Obtained.wellFormed {allowed : Call κ → Prop} {expr : Expr κ}
    (obtained : Obtained allowed expr) : expr.WellFormed := by
  induction obtained with
  | number value => exact .num _
  | atom symbol => exact .atom symbol
  | call call _ _ ih => exact call.wellFormed ih
  | child _ member ih => exact ih.child member
  | rest _ ih => exact (Fits.of_nesting ih le_rfl).splitCoefficient.formed

/-! ### Parts that are written instead -/

theorem isNegative_iff (value : κ) : Scalar.isNegative value = true ↔ Exact.real value < 0 := by
  rw [Scalar.isNegative, Exact.isLess_iff, Exact.real_zero]

omit [Exact κ] in
/-- What stands behind the minus sign of a term with a negative coefficient. -/
def opposite (term : Expr κ) : Expr κ :=
  product [number (-term.splitCoefficient.1), term.splitCoefficient.2]

theorem WellFormed.opposite {term : Expr κ} (formed : term.WellFormed) :
    term.opposite.WellFormed :=
  .product (List.forall_mem_cons.mpr ⟨.num _,
    List.forall_mem_singleton.mpr (Fits.of_nesting formed le_rfl).splitCoefficient.formed⟩)

theorem extent_opposite_le {term : Expr κ} (formed : term.WellFormed)
    (negative : Scalar.isNegative term.splitCoefficient.1 = true) :
    term.opposite.extent ≤ term.extent := by
  have rest := (Fits.of_nesting formed le_rfl).splitCoefficient.formed
  have bounded := (bounded_product (List.forall_mem_cons.mpr
    ⟨WellFormed.num (Scalar.unsigned (-term.splitCoefficient.1)),
      List.forall_mem_singleton.mpr rest⟩)).extent_le
  rw [weightIn_cons, weightIn_cons, weightIn_nil, extent_num] at bounded
  change term.opposite.extent ≤ _ at bounded
  cases symbolic : term.asNumber? with
  | some value =>
      obtain rfl := asNumber?_eq_some.mp symbolic
      have folded : (num value).opposite = number ([Scalar.unsigned (-value), 1].foldl (· * ·) 1) :=
        product_numbers [Scalar.unsigned (-value), 1]
      rw [folded, extent_number, extent_num]
  | none =>
      rcases splitCoefficient_cases symbolic with written | plain
      · omega
      · rw [plain, isNegative_iff, Exact.real_one] at negative
        exact absurd negative (by norm_num)

theorem bounded_below {factor part : Expr κ} (formed : factor.WellFormed)
    (below : factor.below? = some part) : part.WellFormed ∧ part.extent ≤ factor.extent := by
  unfold below? at below
  split at below
  · rename_i base exponent
    split at below
    · rename_i negative
      cases below
      obtain ⟨value, numeric, _⟩ := (Option.any_eq_true _ _).mp negative
      obtain rfl := asNumber?_eq_some.mp numeric
      have opposite : (num value).negate = number ([Scalar.unsigned (-1), value].foldl (· * ·) 1) :=
        product_numbers [Scalar.unsigned (-1), value]
      have bounded := bounded_power (formed.child List.mem_cons_self)
        (WellFormed.num (Scalar.unsigned ([Scalar.unsigned (-1), value].foldl (· * ·) 1)))
      have least := share_le (number ([Scalar.unsigned (-1), value].foldl (· * ·) 1))
      rw [opposite]
      refine ⟨bounded.fits.formed, bounded.extent_le.trans ?_⟩
      rw [extent_number] at least
      rw [extent_pow, extent_num]
      exact Nat.mul_le_mul_left _ least
    · cases below
  · cases below

end Exact

end Mechanism.Expr
