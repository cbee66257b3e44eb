import Mechanism.Proofs.Expr.Stability

/-!
Which expressions are canonical. The constructors keep all nodes canonical, unless what they have
collected is a sum again, or has a base that a power or a product has hidden.
-/

namespace Mechanism

theorem Grouping.nodup_filterMap {α β γ : Type} {items : List α} {change : α → Option β} {key : α → γ}
    {later : β → γ} (same : ∀ item ∈ items, ∀ result, change item = some result →
      later result = key item) (unlike : (items.map key).Nodup) :
    ((items.filterMap change).map later).Nodup := by
  refine unlike.sublist ?_
  clear unlike
  induction items with
  | nil => exact List.Sublist.refl _
  | cons head tail ih =>
      have rest := ih fun item member => same item (List.mem_cons_of_mem _ member)
      cases changed : change head with
      | none =>
          rw [List.filterMap_cons_none changed]
          exact rest.cons _
      | some result =>
          rw [List.filterMap_cons_some changed, List.map_cons, List.map_cons,
            same head List.mem_cons_self result changed]
          exact rest.cons_cons _

theorem Grouping.length_valuesOf_le {α β : Type} [BEq α] [LawfulBEq α] {pairs : List (α × β)}
    (unlike : (pairs.map Prod.fst).Nodup) (key : α) : (valuesOf key pairs).length ≤ 1 := by
  by_cases known : key ∈ pairs.map Prod.fst
  · obtain ⟨pair, member, rfl⟩ := List.mem_map.mp known
    rw [valuesOf_apart unlike member]
    exact le_rfl
  · rw [valuesOf_eq_nil known]
    exact Nat.zero_le _

namespace Expr

variable {κ : Type} [Scalar κ]

theorem numbersIn_perm {left right : List (Expr κ)} (perm : left.Perm right) :
    (numbersIn left).Perm (numbersIn right) := perm.filterMap _

theorem symbolicIn_perm {left right : List (Expr κ)} (perm : left.Perm right) :
    (symbolicIn left).Perm (symbolicIn right) := perm.filter _

theorem symbolicIn_numerals {exprs : List (Expr κ)}
    (numerals : ∀ expr ∈ exprs, ∃ value, expr = num value) :
    symbolicIn (addendsOf exprs) = [] := by
  rw [addendsOf_eq_self fun expr member => by
    obtain ⟨value, rfl⟩ := numerals expr member
    exact nofun]
  refine List.filter_eq_nil_iff.mpr fun expr member => ?_
  obtain ⟨value, rfl⟩ := numerals expr member
  exact nofun

theorem numbersIn_append (left right : List (Expr κ)) :
    numbersIn (left ++ right) = numbersIn left ++ numbersIn right := List.filterMap_append

theorem symbolicIn_append (left right : List (Expr κ)) :
    symbolicIn (left ++ right) = symbolicIn left ++ symbolicIn right := List.filter_append _ _

theorem canonical_ofTerms {terms : List (Expr κ)} (canonical : ∀ term ∈ terms, term.Canonical)
    (flat : ∀ term ∈ terms, term.label ≠ .add) (single : (numbersIn terms).length ≤ 1)
    (nonzero : ∀ value ∈ numbersIn terms, Scalar.isZero value = false)
    (unlike : ((symbolicIn terms).map fun term => term.splitCoefficient.2).Nodup) :
    (ofTerms terms).Canonical := by
  match terms with
  | [] => exact canonical_zero
  | [term] => exact canonical term List.mem_cons_self
  | first :: second :: rest =>
      have perm := arrange_perm (first :: second :: rest)
      refine .node ⟨?_, sorted_arrange _, ?_, ?_, ?_, ?_⟩ ?_
      · rw [perm.length_eq]
        simp
      · exact fun term member => flat term (perm.mem_iff.mp member)
      · rw [(numbersIn_perm perm).length_eq]
        exact single
      · exact fun value member => nonzero value ((numbersIn_perm perm).mem_iff.mp member)
      · exact ((symbolicIn_perm perm).map _).nodup_iff.mpr unlike
      · exact fun term member => canonical term (perm.mem_iff.mp member)

/-- A sum that is left over once among the like terms is all that is left. Otherwise it would become
a term of the sum. -/
def Merges (terms : List (Expr κ)) : Prop :=
  ∀ group ∈ likeTerms (symbolicIn (addendsOf terms)), Scalar.isZero group.2 = false →
    Scalar.isOne group.2 = true → group.1.label = .add → sum terms = group.1

theorem unscaled_of_likeTerms {leaves : List (Expr κ)} (canonical : ∀ leaf ∈ leaves, leaf.Canonical)
    {group : Expr κ × κ} (member : group ∈ likeTerms (symbolicIn leaves)) : group.1.Unscaled := by
  obtain ⟨term, among, same⟩ := mem_likeTerms member
  rw [← same]
  exact (scaled_of_canonical (canonical term (List.mem_filter.mp among).1)
    (asNumber?_of_symbolic among)).unscaled

theorem scaled?_cases {group : Expr κ × κ} {term : Expr κ} (scaled : scaled? group = some term) :
    Scalar.isZero group.2 = false ∧
      (Scalar.isOne group.2 = true ∧ term = group.1 ∨
        Scalar.isOne group.2 = false ∧ term = scaledBy group.2 group.1) := by
  unfold scaled? at scaled
  split at scaled
  · cases scaled
  · rename_i nonzero
    split at scaled
    · rename_i isOne
      cases scaled
      exact ⟨Bool.not_eq_true _ ▸ nonzero, Or.inl ⟨isOne, rfl⟩⟩
    · rename_i notOne
      cases scaled
      exact ⟨Bool.not_eq_true _ ▸ nonzero, Or.inr ⟨Bool.not_eq_true _ ▸ notOne, rfl⟩⟩

theorem scaled_of_scaled? {group : Expr κ × κ} (unscaled : group.1.Unscaled) {term : Expr κ}
    (scaled : scaled? group = some term) :
    term.Canonical ∧ term.asNumber? = none ∧ term.splitCoefficient.2 = group.1 := by
  obtain ⟨nonzero, ⟨_, rfl⟩ | ⟨notOne, rfl⟩⟩ := scaled?_cases scaled
  · exact ⟨unscaled.canonical, unscaled.asNumber?_eq, by rw [unscaled.splitCoefficient_eq]⟩
  · exact ⟨canonical_scaledBy unscaled nonzero notOne, rfl,
      by rw [splitCoefficient_scaledBy unscaled]⟩

theorem nodup_likeTerms (terms : List (Expr κ)) : ((likeTerms terms).map Prod.fst).Nodup := by
  rw [likeTerms, Grouping.ofPairs_eq, List.map_map, List.map_map]
  refine (List.map_congr_left (g := id) fun _ _ => rfl).symm ▸ ?_
  rw [List.map_id]
  exact Grouping.nodup_distinct _

theorem unlike_addends {expr : Expr κ} (canonical : expr.Canonical) :
    ((symbolicIn expr.addends).map fun leaf => leaf.splitCoefficient.2).Nodup := by
  cases expr with
  | add terms =>
      have settled : SettledSum terms := canonical.settled
      rw [addends, addendsOf_eq_self settled.flat]
      exact settled.unlike
  | num => exact List.nodup_nil
  | _ => exact List.nodup_singleton _

theorem nesting_num (value : κ) : (num value : Expr κ).nesting = 0 := by
  simp only [nesting, nestingIn]

theorem nestingOf_le {operands : List (Expr κ)} {most : Nat}
    (below : ∀ operand ∈ operands, operand.nesting ≤ most) : nestingOf operands ≤ most := by
  have holds (rest : List (Expr κ)) (start : Nat) (low : start ≤ most)
      (below : ∀ operand ∈ rest, operand.nesting ≤ most) :
      rest.foldl (fun most operand => max most operand.nesting) start ≤ most := by
    induction rest generalizing start with
    | nil => exact low
    | cons head tail ih =>
        obtain ⟨here, later⟩ := List.forall_mem_cons.mp below
        exact ih _ (max_le low here) later
  exact holds operands 0 (Nat.zero_le _) below

theorem nesting_exponent_le (leaf : Expr κ) : leaf.baseAndExponent.2.nesting ≤ leaf.nesting := by
  cases leaf with
  | pow base exponent => exact (nesting_exponent_lt base exponent).le
  | _ => exact (nesting_num 1).trans_le (Nat.zero_le _)

/-- What a power comes to if no whole exponent is passed on. -/
inductive PowerOf (base exponent : Expr κ) : Expr κ → Prop where
  | folded (value : κ) : PowerOf base exponent (number value)
  | same (plain : ¬ base.Passes) : PowerOf base exponent base
  | kept (settled : SettledPower base exponent) : PowerOf base exponent (pow base exponent)

/-- A canonical factor that is a number or has the given base. -/
structure Plainly (base factor : Expr κ) : Prop where
  canonical : factor.Canonical
  flat : factor.label ≠ .mul
  base_eq : factor.asNumber? = none → factor.baseAndExponent.1 = base

theorem baseAndExponent_eq {expr : Expr κ} (noPower : expr.label ≠ .pow) :
    expr.baseAndExponent = (expr, one) := by
  cases expr with
  | pow => exact absurd rfl noPower
  | _ => rfl

theorem PowerOf.plainly {base exponent power : Expr κ} (outcome : PowerOf base exponent power)
    (baseCanonical : base.Canonical) (exponentCanonical : exponent.Canonical) :
    Plainly base power := by
  cases outcome with
  | folded value => exact ⟨canonical_number value, nofun, nofun⟩
  | same plain =>
      exact ⟨baseCanonical, fun product => plain (Or.inr product),
        fun _ => by rw [baseAndExponent_eq fun power => plain (Or.inl power)]⟩
  | kept settled =>
      refine ⟨.node settled ?_, nofun, fun _ => rfl⟩
      simp [children, baseCanonical, exponentCanonical]

theorem PowerOf.nesting_le {base exponent power : Expr κ} (outcome : PowerOf base exponent power) :
    power.nesting ≤ 1 + max base.nesting exponent.nesting := by
  cases outcome with
  | folded value => exact (nesting_num _).trans_le (Nat.zero_le _)
  | same => omega
  | kept => exact (nesting_pow base exponent).le

theorem canonical_ofFactors (coefficient : κ) {operands : List (Expr κ)}
    (canonical : ∀ operand ∈ operands, operand.Canonical)
    (flat : ∀ operand ∈ operands, operand.label ≠ .mul)
    (symbolic : ∀ operand ∈ operands, operand.asNumber? = none)
    (unlike : (operands.map fun operand => operand.baseAndExponent.1).Nodup) :
    (ofFactors coefficient operands).Canonical := by
  have perm := arrange_perm operands
  have sorted := sorted_arrange operands
  replace canonical : ∀ operand ∈ arrange operands, operand.Canonical :=
    fun operand member => canonical operand (perm.mem_iff.mp member)
  replace flat : ∀ operand ∈ arrange operands, operand.label ≠ .mul :=
    fun operand member => flat operand (perm.mem_iff.mp member)
  replace symbolic : ∀ operand ∈ arrange operands, operand.asNumber? = none :=
    fun operand member => symbolic operand (perm.mem_iff.mp member)
  replace unlike : ((arrange operands).map fun operand => operand.baseAndExponent.1).Nodup :=
    (perm.map _).nodup_iff.mpr unlike
  unfold ofFactors
  generalize arrange operands = leaves at *
  cases zero : Scalar.isZero coefficient with
  | true => exact canonical_zero
  | false =>
      rw [if_neg Bool.false_ne_true]
      cases isOne : Scalar.isOne coefficient with
      | true =>
          match leaves with
          | [] => exact canonical_number coefficient
          | [leaf] => exact canonical leaf List.mem_cons_self
          | first :: second :: rest =>
              refine .node ⟨by simp, sorted, flat, ?_, ?_, ?_⟩ canonical
              · rw [numbersIn_eq_nil symbolic]
                exact Nat.zero_le _
              · rw [numbersIn_eq_nil symbolic]
                exact nofun
              · rwa [symbolicIn_eq_self symbolic]
      | false =>
          match leaves with
          | [] => exact canonical_number coefficient
          | first :: rest =>
              have below : Sorted (number coefficient :: first :: rest) := by
                refine List.pairwise_cons.mpr ⟨fun leaf member => ?_, sorted⟩
                exact precedes_weak.asymm (precedes_symbolic _ (symbolic leaf member))
              have settled : SettledProduct (number coefficient :: first :: rest) := by
                refine ⟨by simp, below, List.forall_mem_cons.mpr ⟨nofun, flat⟩, ?_, ?_, ?_⟩
                · rw [number, numbersIn_num, numbersIn_eq_nil symbolic]
                  exact le_rfl
                · rw [number_of_nonzero zero, numbersIn_num, numbersIn_eq_nil symbolic]
                  exact List.forall_mem_cons.mpr ⟨⟨zero, isOne⟩, nofun⟩
                · rwa [number, symbolicIn_num, symbolicIn_eq_self symbolic]
              have whole : (mul (number coefficient :: first :: rest)).Canonical :=
                .node settled (List.forall_mem_cons.mpr ⟨canonical_number coefficient, canonical⟩)
              cases rest <;> exact whole

theorem mem_exponents {leaves : List (Expr κ)} {base exponent : Expr κ}
    (member : exponent ∈ Grouping.valuesOf base (leaves.map baseAndExponent)) :
    ∃ leaf ∈ leaves, leaf.baseAndExponent.1 = base ∧ leaf.baseAndExponent.2 = exponent := by
  obtain ⟨pair, listed, chosen⟩ := List.mem_filterMap.mp member
  obtain ⟨leaf, here, rfl⟩ := List.mem_map.mp listed
  split at chosen
  · rename_i same
    exact ⟨leaf, here, eq_of_beq same, Option.some.inj chosen⟩
  · cases chosen

theorem mem_likeBases {leaves : List (Expr κ)} {group : Expr κ × List (Expr κ)}
    (member : group ∈ likeBases leaves) :
    (∃ leaf ∈ leaves, leaf.baseAndExponent.1 = group.1) ∧
      group.2 = Grouping.valuesOf group.1 (leaves.map baseAndExponent) := by
  rw [likeBases, Grouping.ofPairs_eq] at member
  obtain ⟨base, among, rfl⟩ := List.mem_map.mp member
  rw [Grouping.mem_distinct, List.map_map] at among
  exact ⟨List.mem_map.mp among, rfl⟩

theorem Canonical.base {leaf : Expr κ} (canonical : leaf.Canonical) :
    leaf.baseAndExponent.1.Canonical := by
  cases leaf with
  | pow => exact canonical.child List.mem_cons_self
  | _ => exact canonical

theorem nodup_likeBases (leaves : List (Expr κ)) : ((likeBases leaves).map Prod.fst).Nodup := by
  rw [likeBases, Grouping.ofPairs_eq, List.map_map]
  refine (List.map_congr_left (g := id) fun _ _ => rfl).symm ▸ ?_
  rw [List.map_id]
  exact Grouping.nodup_distinct _

/-- The factors of one base leave over at most one sum of exponents, and no whole exponent comes up
for a base that would pass it on. -/
structure Joins (operands : List (Expr κ)) : Prop where
  merges : ∀ group ∈ likeBases (symbolicIn (factorsOf operands)), Merges group.2
  kept : ∀ group ∈ likeBases (symbolicIn (factorsOf operands)), group.1.Passes →
    (sum group.2).wholeExponent? = none

theorem Canonical.kept {leaf : Expr κ} (canonical : leaf.Canonical) (flat : leaf.label ≠ .mul)
    (passes : leaf.baseAndExponent.1.Passes) : leaf.baseAndExponent.2.wholeExponent? = none := by
  cases leaf with
  | pow => exact SettledPower.kept canonical.settled passes
  | mul => exact absurd rfl flat
  | _ => rcases passes with passes | passes <;> cases passes

theorem unlike_factors {expr : Expr κ} (canonical : expr.Canonical) :
    ((symbolicIn expr.factors).map fun leaf => leaf.baseAndExponent.1).Nodup := by
  cases expr with
  | mul operands =>
      have settled : SettledProduct operands := canonical.settled
      rw [factors, factorsOf_eq_self settled.flat]
      exact settled.unlike
  | num => exact List.nodup_nil
  | _ => exact List.nodup_singleton _

section Neutral

variable [Neutral κ]

theorem canonical_sum {terms : List (Expr κ)} (canonical : ∀ term ∈ terms, term.Canonical)
    (merges : Merges terms) : (sum terms).Canonical := by
  have leaves : ∀ leaf ∈ addendsOf terms, leaf.Canonical :=
    fun leaf member => (canonical_addendsOf canonical leaf member).1
  by_cases exposed : ∃ group ∈ likeTerms (symbolicIn (addendsOf terms)),
      Scalar.isZero group.2 = false ∧ Scalar.isOne group.2 = true ∧ group.1.label = .add
  · obtain ⟨group, member, nonzero, isOne, isSum⟩ := exposed
    rw [merges group member nonzero isOne isSum]
    exact (unscaled_of_likeTerms leaves member).canonical
  have collected : ∀ term ∈ collectedIn (addendsOf terms),
      term.Canonical ∧ term.asNumber? = none ∧ term.label ≠ .add := by
    intro term member
    obtain ⟨group, among, scaled⟩ := List.mem_filterMap.mp member
    obtain ⟨termCanonical, symbolic, _⟩ :=
      scaled_of_scaled? (unscaled_of_likeTerms leaves among) scaled
    refine ⟨termCanonical, symbolic, ?_⟩
    obtain ⟨nonzero, ⟨isOne, rfl⟩ | ⟨_, rfl⟩⟩ := scaled?_cases scaled
    · exact fun isSum => exposed ⟨group, among, nonzero, isOne, isSum⟩
    · exact nofun
  have constant : ∀ term ∈ constantIn (addendsOf terms), ∃ value,
      term = num value ∧ Scalar.isZero value = false := by
    intro term member
    unfold constantIn at member
    split at member
    · cases member
    · rename_i nonzero
      rw [Bool.not_eq_true] at nonzero
      rw [List.mem_singleton.mp member, number_of_nonzero nonzero]
      exact ⟨_, rfl, nonzero⟩
  have noNumbers : numbersIn (collectedIn (addendsOf terms)) = [] :=
    numbersIn_eq_nil fun term member => (collected term member).2.1
  have oneConstant : (constantIn (addendsOf terms)).length ≤ 1 := by
    unfold constantIn
    split <;> simp
  rw [sum_canonical canonical]
  apply canonical_ofTerms
  · intro term member
    rcases List.mem_append.mp member with symbolic | number
    · exact (collected term symbolic).1
    · obtain ⟨value, rfl, nonzero⟩ := constant term number
      exact canonical_leaf (unsigned_of_nonzero nonzero) rfl
  · intro term member
    rcases List.mem_append.mp member with symbolic | number
    · exact (collected term symbolic).2.2
    · obtain ⟨value, rfl, _⟩ := constant term number
      exact nofun
  · rw [numbersIn_append, noNumbers, List.nil_append]
    exact (List.length_filterMap_le _ _).trans oneConstant
  · intro value member
    rw [numbersIn_append, noNumbers, List.nil_append, mem_numbersIn] at member
    obtain ⟨other, same, nonzero⟩ := constant _ member
    cases same
    exact nonzero
  · have noSymbols : symbolicIn (constantIn (addendsOf terms)) = [] := by
      refine List.filter_eq_nil_iff.mpr fun term member => ?_
      obtain ⟨value, rfl, _⟩ := constant term member
      exact nofun
    rw [symbolicIn_append, noSymbols, List.append_nil,
      symbolicIn_eq_self fun term member => (collected term member).2.1]
    exact Grouping.nodup_filterMap (fun group member term scaled =>
      (scaled_of_scaled? (unscaled_of_likeTerms leaves member) scaled).2.2) (nodup_likeTerms _)

theorem merges_of_unlike {terms : List (Expr κ)} (canonical : ∀ term ∈ terms, term.Canonical)
    (unlike : ((symbolicIn (addendsOf terms)).map fun leaf => leaf.splitCoefficient.2).Nodup) :
    Merges terms := by
  intro group member nonzero isOne isSum
  rw [likeTerms] at member
  simp only at member
  rw [Grouping.ofPairs_apart (by simpa [Function.comp_def] using unlike), List.map_map,
    List.map_map] at member
  obtain ⟨leaf, among, rfl⟩ := List.mem_map.mp member
  have here := (List.mem_filter.mp among).1
  obtain ⟨leafCanonical, flat⟩ := canonical_addendsOf canonical leaf here
  have scaled := scaled_of_canonical leafCanonical (asNumber?_of_symbolic among)
  simp only [Function.comp_apply, List.foldl_cons, List.foldl_nil] at nonzero isOne isSum
  generalize leaf.splitCoefficient.1 = coefficient at *
  generalize leaf.splitCoefficient.2 = rest at *
  cases scaled with
  | alone => exact absurd isSum flat
  | times _ nonzero notOne =>
      rw [Neutral.zero_add coefficient (unsigned_of_nonzero nonzero), notOne] at isOne
      cases isOne

theorem powerWith_kept (fuel : Nat) {base exponent : Expr κ}
    (kept : base.Passes → exponent.wholeExponent? = none) :
    PowerOf base exponent (powerWith (fuel + 1) base exponent) := by
  have asOne : PowerOf base exponent one := by
    have same : (one : Expr κ) = number 1 := (number_of_nonzero Neutral.isZero_one).symm
    exact same ▸ .folded 1
  unfold powerWith
  cases zero : exponent.isZero with
  | true => exact asOne
  | false =>
      rw [if_neg Bool.false_ne_true]
      cases isOne : exponent.isOne with
      | true =>
          obtain ⟨value, rfl⟩ : ∃ value, exponent = num value := by
            cases exponent with
            | num value => exact ⟨value, rfl⟩
            | _ => cases isOne
          exact .same fun passes => Neutral.whole_of_isOne value isOne (kept passes)
      | false =>
          rw [if_neg Bool.false_ne_true]
          cases folded : foldedPower? base exponent with
          | some value => exact .folded value
          | none =>
              simp only
              split
              · rename_i whole
                exact nomatch (kept (Or.inl rfl)).symm.trans whole
              · rename_i whole
                exact nomatch (kept (Or.inr rfl)).symm.trans whole
              · rename_i base _ _ _ _
                split
                · exact asOne
                · rename_i baseOne
                  exact .kept ⟨kept, Bool.not_eq_true _ ▸ baseOne, zero, isOne, folded⟩

theorem Canonical.exponent {leaf : Expr κ} (canonical : leaf.Canonical) :
    leaf.baseAndExponent.2.Canonical := by
  cases leaf with
  | pow => exact canonical.child (List.mem_cons_of_mem _ List.mem_cons_self)
  | _ => exact canonical_one

theorem sumWith_eq_sum {fuel : Nat} {terms : List (Expr κ)}
    (canonical : ∀ term ∈ terms, term.Canonical) (enough : 2 * nestingOf terms + 3 ≤ fuel) :
    sumWith fuel terms = sum terms := by
  obtain ⟨fuel, rfl⟩ : ∃ less, fuel = less + 3 := ⟨fuel - 3, by omega⟩
  rw [sum_canonical canonical]
  exact sumWith_canonical (fun leaf member => (canonical_addendsOf canonical leaf member).1)
    (steadyTerms canonical (by omega))

theorem productWith_canonical {fuel : Nat} (nesting : Nat) {operands : List (Expr κ)}
    (canonical : ∀ operand ∈ operands, operand.Canonical)
    (below : ∀ operand ∈ operands, operand.nesting ≤ nesting) (enough : 2 * nesting + 4 ≤ fuel)
    (joins : Joins operands) : (productWith fuel operands).Canonical := by
  obtain ⟨fuel, rfl⟩ : ∃ less, fuel = less + 2 := ⟨fuel - 2, by omega⟩
  have leaves : ∀ leaf ∈ symbolicIn (factorsOf operands),
      leaf.Canonical ∧ leaf.nesting ≤ nesting := by
    intro leaf member
    have here := (List.mem_filter.mp member).1
    exact ⟨(canonical_factorsOf canonical leaf here).1,
      (nesting_factorsOf_le canonical here).trans (nestingOf_le below)⟩
  have plainly : ∀ group ∈ likeBases (symbolicIn (factorsOf operands)),
      Plainly group.1 (powerWith (fuel + 1) group.1 (sumWith (fuel + 1) group.2)) := by
    intro group member
    obtain ⟨⟨leaf, among, same⟩, exponents⟩ := mem_likeBases member
    have inside : ∀ exponent ∈ group.2, exponent.Canonical ∧ exponent.nesting ≤ nesting := by
      intro exponent inside
      obtain ⟨leaf, among, _, rfl⟩ := mem_exponents (exponents ▸ inside)
      obtain ⟨leafCanonical, leafBelow⟩ := leaves leaf among
      exact ⟨leafCanonical.exponent, (nesting_exponent_le leaf).trans leafBelow⟩
    have exponentsCanonical := fun exponent member => (inside exponent member).1
    have exponentsBelow := nestingOf_le fun exponent member => (inside exponent member).2
    rw [sumWith_eq_sum exponentsCanonical (by omega)]
    exact (powerWith_kept fuel (joins.kept group member)).plainly
      (same ▸ (leaves leaf among).1.base)
      (canonical_sum exponentsCanonical (joins.merges group member))
  rw [productWith]
  have unlike := nodup_likeBases (symbolicIn (factorsOf operands))
  generalize likeBases (symbolicIn (factorsOf operands)) = groups at plainly unlike
  have parts : (groups.map fun group =>
      powerWith (fuel + 1) group.1 (sumWith (fuel + 1) group.2)).flatMap pieces =
      groups.map fun group => powerWith (fuel + 1) group.1 (sumWith (fuel + 1) group.2) := by
    refine (List.flatMap_congr fun power member => ?_).trans (List.flatMap_singleton' _)
    obtain ⟨group, among, rfl⟩ := List.mem_map.mp member
    exact pieces_eq_self (plainly group among).flat
  simp only [parts]
  split
  · exact canonical_zero
  refine canonical_ofFactors _ ?_ ?_ (fun power member => asNumber?_of_symbolic member) ?_
  · intro power member
    obtain ⟨group, among, rfl⟩ := List.mem_map.mp (List.mem_filter.mp member).1
    exact (plainly group among).canonical
  · intro power member
    obtain ⟨group, among, rfl⟩ := List.mem_map.mp (List.mem_filter.mp member).1
    exact (plainly group among).flat
  · rw [symbolicIn, List.filter_map, List.map_map]
    refine (List.map_congr_left fun group member => ?_) ▸ (List.filter_sublist.map _).nodup unlike
    obtain ⟨among, symbolic⟩ := List.mem_filter.mp member
    exact ((plainly group among).base_eq (Option.isNone_iff_eq_none.mp symbolic)).symm

theorem canonical_product {operands : List (Expr κ)}
    (canonical : ∀ operand ∈ operands, operand.Canonical) (joins : Joins operands) :
    (product operands).Canonical :=
  productWith_canonical _ canonical (fun _ member => nesting_le_nestingOf member)
    (by unfold fuelFor; omega) joins

end Neutral

end Expr

end Mechanism
