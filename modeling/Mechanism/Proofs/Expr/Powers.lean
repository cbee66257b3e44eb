import Mechanism.Proofs.Expr.Canonical

/-!
Powers of canonical expressions, and calls of the other constructors. A whole exponent is passed on to
the factors of its base, and the powers of these are joined without more.
-/

namespace Mechanism

namespace Expr

variable {κ : Type} [Scalar κ]

/-- A whole exponent that is passed on to the factors of a base does not become a whole exponent of
bases that would pass it on again. -/
def Stops (base exponent : Expr κ) : Prop :=
  exponent.wholeExponent? ≠ none → ∀ leaf ∈ base.factors, leaf.baseAndExponent.1.Passes →
    (product [leaf.baseAndExponent.2, exponent]).wholeExponent? = none

theorem nesting_ofFactors_le (coefficient : κ) (leaves : List (Expr κ)) :
    (ofFactors coefficient leaves).nesting ≤ 1 + nestingOf leaves := by
  have sorted : nestingOf (arrange leaves) ≤ nestingOf leaves := nestingOf_le fun leaf member =>
    nesting_le_nestingOf ((arrange_perm leaves).mem_iff.mp member)
  have scaled : nestingOf (number coefficient :: arrange leaves) ≤ nestingOf leaves :=
    nestingOf_le (List.forall_mem_cons.mpr ⟨(nesting_num _).trans_le (Nat.zero_le _),
      fun leaf member => (nesting_le_nestingOf member).trans sorted⟩)
  unfold ofFactors
  split
  · exact (nesting_num 0).trans_le (Nat.zero_le _)
  · split
    · exact (nesting_num _).trans_le (Nat.zero_le _)
    · rename_i leaf single _
      have least : leaf.nesting ≤ nestingOf (arrange leaves) :=
        nesting_le_nestingOf (single ▸ List.mem_cons_self)
      omega
    · rw [nesting_mul]
      omega
    · rw [nesting_mul]
      omega

theorem powerWith_pow (fuel : Nat) (base exponent : Expr κ) {value : κ}
    (whole : (num value).wholeExponent? ≠ none) :
    powerWith (fuel + 1) (pow base exponent) (num value) =
      if Scalar.isZero value then one
      else if Scalar.isOne value then pow base exponent
      else powerWith fuel base (productWith fuel [exponent, num value]) := by
  obtain ⟨power, isWhole⟩ := Option.ne_none_iff_exists'.mp whole
  replace isWhole : (num value).asNumber?.bind Scalar.wholeExponent? = some power := isWhole
  rw [powerWith]
  case heq => exact isWhole
  rfl

theorem powerWith_mul (fuel : Nat) (operands : List (Expr κ)) {value : κ}
    (whole : (num value).wholeExponent? ≠ none) :
    powerWith (fuel + 1) (mul operands) (num value) =
      if Scalar.isZero value then one
      else if Scalar.isOne value then mul operands
      else productWith fuel (operands.map fun operand => powerWith fuel operand (num value)) := by
  obtain ⟨power, isWhole⟩ := Option.ne_none_iff_exists'.mp whole
  replace isWhole : (num value).asNumber?.bind Scalar.wholeExponent? = some power := isWhole
  rw [powerWith]
  case heq => exact isWhole
  rfl

theorem symbolic_of_not_numbers {left right : Expr κ}
    (unlike : ∀ one other, left = num one → right = num other → False) :
    left.asNumber? = none ∨ right.asNumber? = none := by
  cases left with
  | num one =>
      cases right with
      | num other => exact (unlike one other rfl rfl).elim
      | _ => exact Or.inr rfl
  | _ => exact Or.inl rfl

theorem canonical_apply (function : Elementary) {argument : Expr κ} (canonical : argument.Canonical) :
    (apply function argument).Canonical := by
  unfold apply
  simp only
  split
  · exact canonical_number _
  · rename_i unfolded
    exact .node unfolded (List.forall_mem_singleton.mpr canonical)

theorem canonical_angleOf {y x : Expr κ} (yCanonical : y.Canonical) (xCanonical : x.Canonical) :
    (angleOf y x).Canonical := by
  unfold angleOf
  split
  · exact canonical_number _
  · rename_i symbolic
    exact .node (symbolic_of_not_numbers symbolic) (by simp [children, yCanonical, xCanonical])

theorem canonical_choose (relation : Relation) {left right chosen otherwise : Expr κ}
    (leftCanonical : left.Canonical) (rightCanonical : right.Canonical)
    (chosenCanonical : chosen.Canonical) (otherwiseCanonical : otherwise.Canonical) :
    (choose relation left right chosen otherwise).Canonical := by
  unfold choose
  split
  · split
    · exact chosenCanonical
    · exact otherwiseCanonical
  · rename_i symbolic
    split
    · exact chosenCanonical
    · rename_i unlike
      exact .node ⟨symbolic_of_not_numbers symbolic, by simpa using unlike⟩
        (by simp [children, leftCanonical, rightCanonical, chosenCanonical, otherwiseCanonical])

section Neutral

variable [Neutral κ]

theorem productWith_number (fuel : Nat) {exponent : Expr κ} (canonical : exponent.Canonical) (value : κ)
    (enough : 2 * exponent.nesting + 2 ≤ fuel) :
    productWith fuel [exponent, num value] = product [exponent, num value] ∧
      (product [exponent, num value]).Canonical ∧
      (product [exponent, num value]).nesting ≤ exponent.nesting + 1 := by
  have leaves : symbolicIn (factorsOf [exponent, num value]) = symbolicIn exponent.factors := by
    rw [factorsOf, factorsOf, factorsOf, symbolicIn_append]
    exact List.append_nil _
  have inside : ∀ leaf ∈ symbolicIn exponent.factors, leaf.Canonical ∧ leaf.label ≠ .mul :=
    fun leaf member => canonical.factors leaf (List.mem_filter.mp member).1
  have form {fuel : Nat} (enough : 2 * exponent.nesting + 2 ≤ fuel) :
      productWith fuel [exponent, num value] =
        ofFactors ((numbersIn (factorsOf [exponent, num value])).foldl (· * ·) 1)
          (symbolicIn exponent.factors) := by
    obtain ⟨fuel, rfl⟩ : ∃ less, fuel = less + 2 := ⟨fuel - 2, by omega⟩
    refine productWith_unlike leaves inside (unlike_factors canonical) fun leaf member => ?_
    have below := nesting_factors_le canonical (List.mem_filter.mp member).1
    exact steady_leaf (inside leaf member).1 (by omega)
  have least : exponent.nesting ≤ nestingOf [exponent, num value] :=
    nesting_le_nestingOf List.mem_cons_self
  have whole : product [exponent, num value] = _ := form (by unfold fuelFor; omega)
  refine ⟨(form enough).trans whole.symm, ?_, ?_⟩
  · rw [whole]
    exact canonical_ofFactors _ (fun leaf member => (inside leaf member).1)
      (fun leaf member => (inside leaf member).2) (fun leaf member => asNumber?_of_symbolic member)
      (unlike_factors canonical)
  · rw [whole]
    have below : nestingOf (symbolicIn exponent.factors) ≤ exponent.nesting := nestingOf_le
      fun leaf member => nesting_factors_le canonical (List.mem_filter.mp member).1
    exact (nesting_ofFactors_le _ _).trans (by omega)

theorem powerWith_factor {fuel : Nat} {leaf : Expr κ} (canonical : leaf.Canonical)
    (flat : leaf.label ≠ .mul) {value : κ} (numeral : (num value).Canonical)
    (whole : (num value).wholeExponent? ≠ none)
    (stops : leaf.baseAndExponent.1.Passes →
      (product [leaf.baseAndExponent.2, num value]).wholeExponent? = none)
    (enough : 2 * leaf.nesting + 2 ≤ fuel) :
    Plainly leaf.baseAndExponent.1 (powerWith (fuel + 1) leaf (num value)) ∧
      (powerWith (fuel + 1) leaf (num value)).nesting ≤ leaf.nesting + 1 := by
  have level : (num value).nesting = 0 := nesting_num value
  by_cases isPower : leaf.label = .pow
  · obtain ⟨base, exponent, rfl⟩ : ∃ base exponent, leaf = pow base exponent := by
      cases leaf with
      | pow base exponent => exact ⟨base, exponent, rfl⟩
      | _ => cases isPower
    have depth := nesting_pow base exponent
    obtain ⟨fuel, rfl⟩ : ∃ less, fuel = less + 1 := ⟨fuel - 1, by omega⟩
    have exponentCanonical : exponent.Canonical := canonical.exponent
    replace stops : base.Passes → (product [exponent, num value]).wholeExponent? = none := stops
    obtain ⟨same, multiplied, low⟩ :=
      productWith_number (fuel + 1) exponentCanonical value (by omega)
    have outcome := powerWith_kept fuel stops
    rw [powerWith_pow _ _ _ whole, same]
    split
    · exact ⟨⟨canonical_one, nofun, nofun⟩, (nesting_num 1).trans_le (Nat.zero_le _)⟩
    · split
      · exact ⟨⟨canonical, flat, fun _ => rfl⟩, Nat.le_succ _⟩
      · exact ⟨outcome.plainly canonical.base multiplied, outcome.nesting_le.trans (by omega)⟩
  · rw [baseAndExponent_eq isPower]
    have outcome : PowerOf leaf (num value) (powerWith (fuel + 1) leaf (num value)) :=
      powerWith_kept fuel fun passes => absurd passes (not_or.mpr ⟨isPower, flat⟩)
    exact ⟨outcome.plainly canonical numeral, outcome.nesting_le.trans (by omega)⟩

theorem joins_of_unlike {operands : List (Expr κ)} (numeric others : List (Expr κ))
    (canonical : ∀ operand ∈ operands, operand.Canonical)
    (leaves : symbolicIn (factorsOf operands) = numeric ++ others)
    (numbers : ∀ leaf ∈ numeric, (∃ value, leaf.baseAndExponent.1 = num value) ∧
      ∃ value, leaf.baseAndExponent.2 = num value)
    (unlike : (others.map fun leaf => leaf.baseAndExponent.1).Nodup) : Joins operands := by
  have inside : ∀ leaf ∈ numeric ++ others, leaf.Canonical ∧ leaf.label ≠ .mul := by
    rw [← leaves]
    exact fun leaf member => canonical_factorsOf canonical leaf (List.mem_filter.mp member).1
  have pairsUnlike : ((others.map baseAndExponent).map Prod.fst).Nodup := by
    rwa [List.map_map]
  refine ⟨fun group member => ?_, fun group member passes => ?_⟩
  all_goals
    obtain ⟨known, exponents⟩ := mem_likeBases member
    rw [leaves] at known exponents
    rw [List.map_append, Grouping.valuesOf_append] at exponents
    rw [exponents]
  · have canonicalAll : ∀ exponent ∈ group.2, exponent.Canonical := by
      rw [exponents, ← Grouping.valuesOf_append, ← List.map_append]
      intro exponent among
      obtain ⟨leaf, here, _, rfl⟩ := mem_exponents among
      exact (inside leaf here).1.exponent
    rw [exponents] at canonicalAll
    refine merges_of_unlike canonicalAll ?_
    have alone : symbolicIn (addendsOf
        (Grouping.valuesOf group.1 (numeric.map baseAndExponent))) = [] := by
      refine symbolicIn_numerals fun exponent among => ?_
      obtain ⟨leaf, here, _, rfl⟩ := mem_exponents among
      exact (numbers leaf here).2
    rw [addendsOf_eq, List.flatMap_append, ← addendsOf_eq, ← addendsOf_eq, symbolicIn_append,
      alone, List.nil_append]
    have few := Grouping.length_valuesOf_le pairsUnlike group.1
    generalize Grouping.valuesOf group.1 (others.map baseAndExponent) = rest at few canonicalAll
    match rest with
    | [] => exact List.nodup_nil
    | [exponent] =>
        rw [addendsOf, addendsOf, List.append_nil]
        exact unlike_addends (canonicalAll exponent (List.mem_append_right _ List.mem_cons_self))
    | _ :: _ :: _ => exact absurd few (by simp)
  · have notNumeric : ∀ leaf ∈ numeric, leaf.baseAndExponent.1 ≠ group.1 := by
      rintro leaf here same
      obtain ⟨⟨value, isNumber⟩, _⟩ := numbers leaf here
      rw [← same, isNumber] at passes
      rcases passes with passes | passes <;> cases passes
    have alone : Grouping.valuesOf group.1 (numeric.map baseAndExponent) = [] :=
      List.eq_nil_iff_forall_not_mem.mpr fun exponent among => by
        obtain ⟨leaf, here, same, _⟩ := mem_exponents among
        exact notNumeric leaf here same
    obtain ⟨leaf, here, same⟩ := known
    obtain ⟨leafCanonical, flat⟩ := inside leaf here
    have among : leaf ∈ others :=
      (List.mem_append.mp here).resolve_left fun numeral => notNumeric leaf numeral same
    have only := Grouping.valuesOf_apart pairsUnlike (List.mem_map_of_mem among)
    rw [same] at only
    rw [alone, only, List.nil_append]
    have stays : sum [leaf.baseAndExponent.2] = leaf.baseAndExponent.2 := by
      have least : leaf.baseAndExponent.2.nesting ≤ nestingOf [leaf.baseAndExponent.2] :=
        nesting_le_nestingOf List.mem_cons_self
      exact steady leafCanonical.exponent (by unfold fuelFor; omega)
    rw [stays]
    exact leafCanonical.kept flat (same ▸ passes)

theorem joins_powers {operands : List (Expr κ)} (settled : SettledProduct operands)
    {raise : Expr κ → Expr κ}
    (plainly : ∀ operand ∈ operands, Plainly operand.baseAndExponent.1 (raise operand))
    (numbers : ∀ value ∈ numbersIn operands, (raise (num value)).asNumber? = none →
      (∃ base, (raise (num value)).baseAndExponent.1 = num base) ∧
        ∃ exponent, (raise (num value)).baseAndExponent.2 = num exponent) :
    Joins (operands.map raise) := by
  have flat : ∀ power ∈ operands.map raise, power.label ≠ .mul :=
    List.forall_mem_map.mpr fun operand member => (plainly operand member).flat
  have parts := congrArg (fun operands => symbolicIn (operands.map raise))
    (sorted_eq_append settled.ordered settled.single)
  simp only [List.map_append, symbolicIn_append] at parts
  refine joins_of_unlike (symbolicIn (((numbersIn operands).map num).map raise))
    (symbolicIn ((symbolicIn operands).map raise)) ?_ ?_ ?_ ?_
  · exact List.forall_mem_map.mpr fun operand member => (plainly operand member).canonical
  · rw [factorsOf_eq_self flat, parts]
  · intro power member
    obtain ⟨among, symbolic⟩ := List.mem_filter.mp member
    rw [List.map_map] at among
    obtain ⟨value, inside, rfl⟩ := List.mem_map.mp among
    exact numbers value inside (Option.isNone_iff_eq_none.mp symbolic)
  · rw [symbolicIn, List.filter_map, List.map_map]
    refine (List.map_congr_left fun operand member => ?_) ▸
      (List.filter_sublist.map _).nodup settled.unlike
    obtain ⟨among, symbolic⟩ := List.mem_filter.mp member
    exact ((plainly operand (List.mem_filter.mp among).1).base_eq
      (Option.isNone_iff_eq_none.mp symbolic)).symm

theorem canonical_power {base exponent : Expr κ} (canonical : base.Canonical)
    (exponentCanonical : exponent.Canonical) (stops : Stops base exponent) :
    (power base exponent).Canonical := by
  unfold power
  obtain ⟨fuel, isFuel, enough⟩ : ∃ fuel,
      fuelFor (max base.nesting exponent.nesting) = fuel + 2 ∧ 2 * base.nesting + 4 ≤ fuel :=
    ⟨4 * max base.nesting exponent.nesting + 14, by unfold fuelFor; omega, by omega⟩
  rw [isFuel]
  by_cases whole : exponent.wholeExponent? = none
  · exact ((powerWith_kept _ fun _ => whole).plainly canonical exponentCanonical).canonical
  obtain ⟨value, rfl⟩ : ∃ value, exponent = num value := by
    cases exponent with
    | num value => exact ⟨value, rfl⟩
    | _ => exact absurd rfl whole
  by_cases isProduct : base.label = .mul
  · obtain ⟨operands, rfl⟩ : ∃ operands, base = mul operands := by
      cases base with
      | mul operands => exact ⟨operands, rfl⟩
      | _ => cases isProduct
    have settled : SettledProduct operands := canonical.settled
    have passed := stops whole
    rw [factors, factorsOf_eq_self settled.flat] at passed
    have raised : ∀ operand ∈ operands,
        Plainly operand.baseAndExponent.1 (powerWith (fuel + 1) operand (num value)) ∧
          (powerWith (fuel + 1) operand (num value)).nesting ≤ operand.nesting + 1 := by
      intro operand member
      have below := nesting_lt_mul member
      exact powerWith_factor (canonical.child member) (settled.flat operand member)
        exponentCanonical whole (passed operand member) (by omega)
    rw [powerWith_mul _ _ whole]
    split
    · exact canonical_one
    split
    · exact canonical
    refine productWith_canonical (mul operands).nesting ?_ ?_ (by omega)
      (joins_powers settled (fun operand member => (raised operand member).1) ?_)
    · exact List.forall_mem_map.mpr fun operand member => (raised operand member).1.canonical
    · refine List.forall_mem_map.mpr fun operand member => ?_
      have below := nesting_lt_mul member
      exact (raised operand member).2.trans below
    · intro number member symbolic
      have outcome : PowerOf (num number) (num value)
          (powerWith (fuel + 1) (num number) (num value)) :=
        powerWith_kept fuel fun passes => by rcases passes with passes | passes <;> cases passes
      generalize powerWith (fuel + 1) (num number) (num value) = power at outcome symbolic
      cases outcome with
      | folded | same => cases symbolic
      | kept => exact ⟨⟨number, rfl⟩, ⟨value, rfl⟩⟩
  · refine (powerWith_factor canonical isProduct exponentCanonical whole (stops whole base ?_)
      (by omega)).1.canonical
    rw [factors_eq_self isProduct]
    exact List.mem_cons_self

theorem productWith_several {fuel : Nat} {operands : List (Expr κ)}
    (several : 2 ≤ operands.length)
    (canonical : ∀ operand ∈ operands, operand.Canonical ∧ operand.label ≠ .mul)
    (symbolic : ∀ operand ∈ operands, operand.asNumber? = none)
    (unlike : (operands.map fun operand => operand.baseAndExponent.1).Nodup)
    (enough : ∀ operand ∈ operands, 2 * operand.nesting ≤ fuel) :
    productWith (fuel + 2) operands = mul (arrange operands) := by
  have leaves := factorsOf_eq_self fun operand member => (canonical operand member).2
  have all := symbolicIn_eq_self symbolic
  have steady : ∀ operand ∈ operands, Steady (fuel + 1) operand.baseAndExponent.2 :=
    fun operand member => steady_leaf (canonical operand member).1
      (Nat.succ_le_succ (enough operand member))
  have arranged := several.trans_eq (arrange_perm operands).length_eq.symm
  rw [productWith_unlike ((congrArg symbolicIn leaves).trans all) canonical unlike steady, leaves,
    numbersIn_eq_nil symbolic, List.foldl_nil, ofFactors, Neutral.isZero_one, Neutral.isOne_one,
    if_neg Bool.false_ne_true]
  generalize arrange operands = sorted at arranged
  rcases sorted with _ | ⟨first, _ | ⟨second, rest⟩⟩
  · simp at arranged
  · simp at arranged
  · rfl

omit [Neutral κ] in
theorem unscaled_symbols {operands : List (Expr κ)} (several : 2 ≤ operands.length)
    (atoms : ∀ operand ∈ operands, ∃ symbol, operand = atom symbol) (unique : operands.Nodup) :
    (mul (arrange operands)).Unscaled := by
  have arranged := arrange_perm operands
  have sorted : ∀ operand ∈ arrange operands, ∃ symbol, operand = atom symbol :=
    fun operand member => atoms operand (arranged.mem_iff.mp member)
  have symbolic : ∀ operand ∈ arrange operands, operand.asNumber? = none := by
    intro operand member
    obtain ⟨symbol, rfl⟩ := sorted operand member
    rfl
  have flat : ∀ operand ∈ arrange operands, operand.label ≠ .mul := by
    intro operand member
    obtain ⟨symbol, rfl⟩ := sorted operand member
    exact nofun
  have bases : (arrange operands).map (fun operand => operand.baseAndExponent.1) =
      arrange operands := by
    refine (List.map_congr_left fun operand member => ?_).trans (List.map_id _)
    obtain ⟨symbol, rfl⟩ := sorted operand member
    rfl
  have settled : SettledProduct (arrange operands) := by
    have none := numbersIn_eq_nil symbolic
    refine ⟨several.trans_eq arranged.length_eq.symm, sorted_arrange _, flat, ?_, ?_, ?_⟩
    · rw [none]
      exact Nat.zero_le 1
    · rw [none]
      exact nofun
    · rw [symbolicIn_eq_self symbolic, bases]
      exact arranged.nodup_iff.mpr unique
  refine ⟨.node settled fun operand member => ?_, ?_⟩
  · obtain ⟨symbol, rfl⟩ := sorted operand member
    exact canonical_leaf trivial rfl
  · rwa [factors, factorsOf_eq_self flat]

theorem power_symbols {operands : List (Expr κ)} (several : 2 ≤ operands.length)
    (atoms : ∀ operand ∈ operands, ∃ symbol, operand = atom symbol) (unique : operands.Nodup)
    {value : κ} (whole : (num value).wholeExponent? ≠ none)
    (nonzero : Scalar.isZero value = false) (notOne : Scalar.isOne value = false) :
    power (mul operands) (num value) =
      mul (arrange (operands.map fun operand => pow operand (num value))) := by
  have numeral : (num value : Expr κ).Canonical := canonical_leaf (unsigned_of_nonzero nonzero) rfl
  have settled (symbol : Atom) : SettledPower (atom symbol) (num value) := by
    refine ⟨fun passes => ?_, rfl, nonzero, notOne, rfl⟩
    rcases passes with same | same <;> cases same
  have powers (fuel : Nat) : operands.map (fun operand => powerWith (fuel + 1) operand (num value)) =
      operands.map fun operand => pow operand (num value) := by
    refine List.map_congr_left fun operand member => ?_
    obtain ⟨symbol, rfl⟩ := atoms operand member
    exact powerWith_settled fuel (settled symbol)
  have fuel : fuelFor (max (mul operands).nesting (num value : Expr κ).nesting) =
      4 * max (mul operands).nesting (num value : Expr κ).nesting + 13 + 2 + 1 := rfl
  rw [power, fuel, powerWith_mul _ operands whole, nonzero, notOne, if_neg Bool.false_ne_true,
    if_neg Bool.false_ne_true, powers]
  refine productWith_several (by simpa using several) ?_ ?_ ?_ ?_
  · refine List.forall_mem_map.mpr fun operand member => ⟨?_, nofun⟩
    obtain ⟨symbol, rfl⟩ := atoms operand member
    exact .node (settled symbol)
      (List.forall_mem_cons.mpr ⟨canonical_leaf trivial rfl, List.forall_mem_singleton.mpr numeral⟩)
  · exact List.forall_mem_map.mpr fun _ _ => rfl
  · rw [List.map_map]
    simpa [Function.comp_def, baseAndExponent] using unique
  · refine List.forall_mem_map.mpr fun operand member => ?_
    obtain ⟨symbol, rfl⟩ := atoms operand member
    have leaf : (atom symbol : Expr κ).nesting = 0 := by simp [nesting, nestingIn]
    rw [nesting_pow, nesting_num, leaf]
    omega

theorem canonical_splitCoefficient {term : Expr κ} (canonical : term.Canonical) :
    term.splitCoefficient.2.Canonical := by
  cases symbolic : term.asNumber? with
  | none => exact (scaled_of_canonical canonical symbolic).unscaled.canonical
  | some value =>
      obtain rfl := asNumber?_eq_some.mp symbolic
      exact canonical_one

end Neutral

end Expr

end Mechanism
