import Mechanism.Proofs.Expr.Arrangement

/-!
Canonical nodes, and why a constructor gives a canonical node back when it is called on the operands
of that node.
-/

namespace Mechanism

namespace Ordering

variable {α : Type} {before : α → α → Bool}

def Sorted (before : α → α → Bool) (items : List α) : Prop :=
  items.Pairwise fun first second => before second first = false

theorem Sorted.sort_eq {items : List α} (sorted : Sorted before items) : sort before items = items := by
  induction items with
  | nil => rfl
  | cons head tail ih =>
      obtain ⟨first, rest⟩ := List.pairwise_cons.mp sorted
      rw [sort, ih rest]
      cases tail with
      | nil => rfl
      | cons next others =>
          rw [place, first next List.mem_cons_self]
          rfl

theorem Sorted.sort_append {items : List α} (sorted : Sorted before items) {least : α}
    (below : ∀ item ∈ items, before least item = true) :
    sort before (items ++ [least]) = least :: items := by
  induction items with
  | nil => rfl
  | cons head tail ih =>
      obtain ⟨first, rest⟩ := List.pairwise_cons.mp sorted
      obtain ⟨here, later⟩ := List.forall_mem_cons.mp below
      have behind : place before head tail = sort before (head :: tail) := by
        rw [sort, Sorted.sort_eq rest]
      rw [List.cons_append, sort, ih rest later, place, here, if_pos rfl, behind, sorted.sort_eq]

/-- An order by keys: of two items one does not come after the other. -/
structure Weak (before : α → α → Bool) : Prop where
  asymm : ∀ {one other}, before one other = true → before other one = false
  trans : ∀ {first second third}, before second first = false → before third second = false →
    before third first = false

theorem Weak.sorted_place (weak : Weak before) (item : α) {items : List α}
    (sorted : Sorted before items) : Sorted before (place before item items) := by
  induction items with
  | nil => exact List.pairwise_singleton _ _
  | cons head tail ih =>
      obtain ⟨first, rest⟩ := List.pairwise_cons.mp sorted
      unfold place
      split
      · rename_i earlier
        refine List.pairwise_cons.mpr ⟨fun other member => ?_, ih rest⟩
        rcases List.mem_cons.mp ((place_perm before item tail).mem_iff.mp member) with rfl | later
        · exact weak.asymm earlier
        · exact first other later
      · rename_i notEarlier
        rw [Bool.not_eq_true] at notEarlier
        refine List.pairwise_cons.mpr ⟨fun other member => ?_, sorted⟩
        rcases List.mem_cons.mp member with rfl | later
        · exact notEarlier
        · exact weak.trans notEarlier (first other later)

theorem Weak.sorted_sort (weak : Weak before) (items : List α) : Sorted before (sort before items) := by
  induction items with
  | nil => exact List.Pairwise.nil
  | cons head tail ih => exact weak.sorted_place head ih

end Ordering

namespace Expr

variable {κ : Type} [Scalar κ]

theorem precedes_weak : Ordering.Weak (precedes (κ := κ)) where
  asymm := by
    intro one other earlier
    simp only [precedes, Bool.or_eq_true, Bool.and_eq_true, decide_eq_true_eq, beq_iff_eq,
      Bool.or_eq_false_iff, Bool.and_eq_false_iff, decide_eq_false_iff_not, UInt64.lt_iff_toNat_lt,
      beq_eq_false_iff_ne] at earlier ⊢
    omega
  trans := by
    intro first second third one other
    simp only [precedes, Bool.or_eq_false_iff, Bool.and_eq_false_iff, decide_eq_false_iff_not,
      UInt64.lt_iff_toNat_lt, beq_eq_false_iff_ne] at one other ⊢
    omega

abbrev Sorted (operands : List (Expr κ)) : Prop := Ordering.Sorted precedes operands

theorem sorted_arrange (operands : List (Expr κ)) : Sorted (arrange operands) :=
  precedes_weak.sorted_sort operands

theorem asNumber?_of_symbolic {operands : List (Expr κ)} {operand : Expr κ}
    (member : operand ∈ symbolicIn operands) : operand.asNumber? = none :=
  Option.isNone_iff_eq_none.mp (List.mem_filter.mp member).2

theorem precedes_symbolic (value : κ) {operand : Expr κ} (symbolic : operand.asNumber? = none) :
    precedes (num value) operand = true := by
  have above : (num value : Expr κ).rank < operand.rank := by
    cases operand with
    | num _ => cases symbolic
    | _ => simp [rank]
  simp [precedes, above]

theorem symbolicIn_eq_self {operands : List (Expr κ)}
    (symbolic : ∀ operand ∈ operands, operand.asNumber? = none) : symbolicIn operands = operands :=
  List.filter_eq_self.mpr fun operand member => by rw [symbolic operand member]; rfl

theorem numbersIn_eq_nil {operands : List (Expr κ)}
    (symbolic : ∀ operand ∈ operands, operand.asNumber? = none) : numbersIn operands = [] :=
  List.filterMap_eq_nil_iff.mpr symbolic

theorem mem_numbersIn {operands : List (Expr κ)} {value : κ} :
    value ∈ numbersIn operands ↔ num value ∈ operands := by
  simp [numbersIn, List.mem_filterMap, asNumber?_eq_some]

theorem Sorted.symbolic_tail {head : Expr κ} {tail : List (Expr κ)} (sorted : Sorted (head :: tail))
    (symbolic : head.asNumber? = none) : ∀ operand ∈ tail, operand.asNumber? = none := by
  intro operand member
  have after := (List.pairwise_cons.mp sorted).1 operand member
  cases number : operand.asNumber? with
  | none => rfl
  | some value =>
      rw [asNumber?_eq_some.mp number, precedes_symbolic value symbolic] at after
      cases after

theorem sorted_eq_append {operands : List (Expr κ)} (sorted : Sorted operands)
    (single : (numbersIn operands).length ≤ 1) :
    operands = (numbersIn operands).map num ++ symbolicIn operands := by
  cases operands with
  | nil => rfl
  | cons head tail =>
      cases number : head.asNumber? with
      | none =>
          have all : ∀ operand ∈ head :: tail, operand.asNumber? = none :=
            List.forall_mem_cons.mpr ⟨number, Sorted.symbolic_tail sorted number⟩
          rw [numbersIn_eq_nil all, symbolicIn_eq_self all]
          rfl
      | some value =>
          obtain rfl := asNumber?_eq_some.mp number
          rw [numbersIn_num] at single
          have nothing : numbersIn tail = [] :=
            List.eq_nil_of_length_eq_zero (Nat.le_zero.mp (Nat.le_of_succ_le_succ single))
          have all : ∀ operand ∈ tail, operand.asNumber? = none :=
            List.filterMap_eq_nil_iff.mp nothing
          rw [numbersIn_num, nothing, symbolicIn_num, symbolicIn_eq_self all]
          rfl

theorem arrange_append_number {operands : List (Expr κ)} (sorted : Sorted operands)
    (symbolic : ∀ operand ∈ operands, operand.asNumber? = none) (value : κ) :
    arrange (operands ++ [num value]) = num value :: operands :=
  Ordering.Sorted.sort_append sorted fun operand member =>
    precedes_symbolic value (symbolic operand member)

/-- A sum as it should be: several terms in order, none of them a sum, no two of them alike, and at
most one number, which is not zero. -/
structure SettledSum (terms : List (Expr κ)) : Prop where
  several : 2 ≤ terms.length
  ordered : Sorted terms
  flat : ∀ term ∈ terms, term.label ≠ .add
  single : (numbersIn terms).length ≤ 1
  nonzero : ∀ value ∈ numbersIn terms, Scalar.isZero value = false
  unlike : ((symbolicIn terms).map fun term => term.splitCoefficient.2).Nodup

/-- A product as it should be: several factors in order, none of them a product, no two of them of
one base, and at most one number, which is neither zero nor one. -/
structure SettledProduct (operands : List (Expr κ)) : Prop where
  several : 2 ≤ operands.length
  ordered : Sorted operands
  flat : ∀ operand ∈ operands, operand.label ≠ .mul
  single : (numbersIn operands).length ≤ 1
  proper : ∀ value ∈ numbersIn operands, Scalar.isZero value = false ∧ Scalar.isOne value = false
  unlike : ((symbolicIn operands).map fun operand => operand.baseAndExponent.1).Nodup

/-- A power or a product: whole exponents are passed on to what is in it. -/
def Passes (base : Expr κ) : Prop := base.label = .pow ∨ base.label = .mul

def wholeExponent? (exponent : Expr κ) : Option Int := exponent.asNumber?.bind Scalar.wholeExponent?

/-- A power as it should be: nothing is folded, and no whole exponent is left to pass on. -/
structure SettledPower (base exponent : Expr κ) : Prop where
  kept : base.Passes → exponent.wholeExponent? = none
  notOne : base.isOne = false
  exponentZero : exponent.isZero = false
  exponentOne : exponent.isOne = false
  unfolded : foldedPower? base exponent = none

/-- A node as it should be, whatever its operands are. -/
def Settled : Expr κ → Prop
  | num value => Scalar.unsigned value = value
  | atom _ => True
  | add terms => SettledSum terms
  | mul operands => SettledProduct operands
  | pow base exponent => SettledPower base exponent
  | call function argument => argument.asNumber?.bind (fun value =>
      (Scalar.apply function value).filter Scalar.isFinite) = none
  | angle y x => y.asNumber? = none ∨ x.asNumber? = none
  | cond _ left right chosen otherwise =>
    (left.asNumber? = none ∨ right.asNumber? = none) ∧ chosen ≠ otherwise

/-- All nodes of the expression are as they should be. -/
inductive Canonical : Expr κ → Prop where
  | node {expr : Expr κ} (settled : expr.Settled)
      (children : ∀ child ∈ expr.children, Canonical child) : Canonical expr

theorem Canonical.settled {expr : Expr κ} (canonical : expr.Canonical) : expr.Settled := by
  cases canonical with
  | node settled _ => exact settled

theorem Canonical.child {expr operand : Expr κ} (canonical : expr.Canonical)
    (member : operand ∈ expr.children) : operand.Canonical := by
  cases canonical with
  | node _ children => exact children operand member

theorem canonical_leaf {expr : Expr κ} (settled : expr.Settled) (leaf : expr.children = []) :
    expr.Canonical :=
  .node settled fun _ member => by rw [leaf] at member; cases member

theorem addends_eq_self {term : Expr κ} (flat : term.label ≠ .add) : addends term = [term] := by
  cases term with
  | add => exact absurd rfl flat
  | _ => rfl

theorem factors_eq_self {operand : Expr κ} (flat : operand.label ≠ .mul) :
    factors operand = [operand] := by
  cases operand with
  | mul => exact absurd rfl flat
  | _ => rfl

theorem addendsOf_eq_self {terms : List (Expr κ)} (flat : ∀ term ∈ terms, term.label ≠ .add) :
    addendsOf terms = terms := by
  rw [addendsOf_eq, List.flatMap_congr fun term member => addends_eq_self (flat term member),
    List.flatMap_singleton']

theorem factorsOf_eq_self {operands : List (Expr κ)}
    (flat : ∀ operand ∈ operands, operand.label ≠ .mul) : factorsOf operands = operands := by
  rw [factorsOf_eq, List.flatMap_congr fun operand member => factors_eq_self (flat operand member),
    List.flatMap_singleton']

theorem Canonical.addends {expr : Expr κ} (canonical : expr.Canonical) :
    ∀ term ∈ expr.addends, term.Canonical ∧ term.label ≠ .add := by
  cases expr with
  | add terms =>
      have flat := SettledSum.flat canonical.settled
      rw [Expr.addends, addendsOf_eq_self flat]
      exact fun term member => ⟨canonical.child member, flat term member⟩
  | _ =>
      intro term member
      obtain rfl := List.mem_singleton.mp member
      exact ⟨canonical, fun same => by cases same⟩

theorem Canonical.factors {expr : Expr κ} (canonical : expr.Canonical) :
    ∀ operand ∈ expr.factors, operand.Canonical ∧ operand.label ≠ .mul := by
  cases expr with
  | mul operands =>
      have flat := SettledProduct.flat canonical.settled
      rw [Expr.factors, factorsOf_eq_self flat]
      exact fun operand member => ⟨canonical.child member, flat operand member⟩
  | _ =>
      intro operand member
      obtain rfl := List.mem_singleton.mp member
      exact ⟨canonical, fun same => by cases same⟩

theorem pieces_eq_self {operand : Expr κ} (flat : operand.label ≠ .mul) :
    pieces operand = [operand] := by
  cases operand with
  | mul => exact absurd rfl flat
  | _ => rfl

theorem canonical_addendsOf {terms : List (Expr κ)} (canonical : ∀ term ∈ terms, term.Canonical) :
    ∀ leaf ∈ addendsOf terms, leaf.Canonical ∧ leaf.label ≠ .add := by
  rw [addendsOf_eq]
  intro leaf member
  obtain ⟨term, among, inside⟩ := List.mem_flatMap.mp member
  exact (canonical term among).addends leaf inside

theorem canonical_factorsOf {operands : List (Expr κ)}
    (canonical : ∀ operand ∈ operands, operand.Canonical) :
    ∀ leaf ∈ factorsOf operands, leaf.Canonical ∧ leaf.label ≠ .mul := by
  rw [factorsOf_eq]
  intro leaf member
  obtain ⟨operand, among, inside⟩ := List.mem_flatMap.mp member
  exact (canonical operand among).factors leaf inside

theorem flat_factors (expr : Expr κ) : ∀ leaf ∈ expr.factors, leaf.label ≠ .mul := by
  induction expr using induct with
  | step expr ih =>
      cases expr with
      | mul operands =>
          rw [factors, factorsOf_eq]
          intro leaf member
          obtain ⟨operand, among, inside⟩ := List.mem_flatMap.mp member
          exact ih operand among leaf inside
      | _ => simp [factors, label]

theorem flat_factorsOf (operands : List (Expr κ)) : ∀ leaf ∈ factorsOf operands, leaf.label ≠ .mul := by
  rw [factorsOf_eq]
  intro leaf member
  obtain ⟨operand, _, inside⟩ := List.mem_flatMap.mp member
  exact flat_factors operand leaf inside

theorem foldr_max_le {counts : List Nat} {most : Nat} :
    counts.foldr max 0 ≤ most ↔ ∀ count ∈ counts, count ≤ most := by
  induction counts with
  | nil => simp
  | cons head tail ih => simp [ih]

theorem nesting_le_nestingOf {operands : List (Expr κ)} {operand : Expr κ}
    (member : operand ∈ operands) : operand.nesting ≤ nestingOf operands := by
  have grows (rest : List (Expr κ)) (most : Nat) :
      most ≤ rest.foldl (fun most operand => max most operand.nesting) most := by
    induction rest generalizing most with
    | nil => exact le_rfl
    | cons head tail ih => exact (le_max_left _ _).trans (ih _)
  have holds (rest : List (Expr κ)) (most : Nat) (inside : operand ∈ rest) :
      operand.nesting ≤ rest.foldl (fun most operand => max most operand.nesting) most := by
    induction rest generalizing most with
    | nil => cases inside
    | cons head tail ih =>
        rcases List.mem_cons.mp inside with rfl | later
        · exact (le_max_right _ _).trans (grows tail _)
        · exact ih _ later
  exact holds operands 0 member

theorem nesting_lt_add {terms : List (Expr κ)} {term : Expr κ} (member : term ∈ terms) :
    term.nesting < (add terms).nesting := by
  rw [nesting_add]
  have := nesting_le_nestingOf member
  omega

theorem nesting_lt_mul {operands : List (Expr κ)} {operand : Expr κ} (member : operand ∈ operands) :
    operand.nesting < (mul operands).nesting := by
  rw [nesting_mul]
  have := nesting_le_nestingOf member
  omega

theorem nesting_exponent_lt (base exponent : Expr κ) :
    exponent.nesting < (pow base exponent).nesting := by
  rw [nesting_pow]
  omega

theorem nesting_factors_le {expr leaf : Expr κ} (canonical : expr.Canonical)
    (member : leaf ∈ expr.factors) : leaf.nesting ≤ expr.nesting := by
  cases expr with
  | mul operands =>
      rw [factors, factorsOf_eq_self (SettledProduct.flat canonical.settled)] at member
      exact (nesting_lt_mul member).le
  | _ => rw [List.mem_singleton.mp member]

theorem nesting_addends_le {terms : List (Expr κ)} (canonical : ∀ term ∈ terms, term.Canonical)
    {leaf : Expr κ} (member : leaf ∈ addendsOf terms) : leaf.nesting ≤ nestingOf terms := by
  rw [addendsOf_eq] at member
  obtain ⟨term, among, inside⟩ := List.mem_flatMap.mp member
  refine le_trans ?_ (nesting_le_nestingOf among)
  cases term with
  | add operands =>
      rw [addends, addendsOf_eq_self (SettledSum.flat (canonical _ among).settled)] at inside
      exact (nesting_lt_add inside).le
  | _ => rw [List.mem_singleton.mp inside]

theorem nesting_factorsOf_le {operands : List (Expr κ)}
    (canonical : ∀ operand ∈ operands, operand.Canonical) {leaf : Expr κ}
    (member : leaf ∈ factorsOf operands) : leaf.nesting ≤ nestingOf operands := by
  rw [factorsOf_eq] at member
  obtain ⟨operand, among, inside⟩ := List.mem_flatMap.mp member
  exact (nesting_factors_le (canonical operand among) inside).trans (nesting_le_nestingOf among)

theorem unsigned_of_nonzero {value : κ} (nonzero : Scalar.isZero value = false) :
    Scalar.unsigned value = value := by
  rw [Scalar.unsigned, if_neg (by rw [nonzero]; exact Bool.false_ne_true)]

theorem number_of_nonzero {value : κ} (nonzero : Scalar.isZero value = false) :
    (number value : Expr κ) = num value := by
  rw [number, unsigned_of_nonzero nonzero]

theorem unsigned_unsigned (value : κ) :
    Scalar.unsigned (Scalar.unsigned value) = Scalar.unsigned value := by
  unfold Scalar.unsigned
  cases zero : Scalar.isZero value <;> simp [zero]

theorem canonical_number (value : κ) : (number value).Canonical :=
  canonical_leaf (unsigned_unsigned value) rfl

theorem canonical_zero : (zero : Expr κ).Canonical :=
  canonical_leaf (show Scalar.unsigned (0 : κ) = 0 by simp [Scalar.unsigned]) rfl

/-- A term without a coefficient: none of its factors is a number. -/
structure Unscaled (rest : Expr κ) : Prop where
  canonical : rest.Canonical
  symbolic : ∀ leaf ∈ rest.factors, leaf.asNumber? = none

def scaledBy (coefficient : κ) (rest : Expr κ) : Expr κ := mul (num coefficient :: rest.factors)

namespace Unscaled

variable {rest : Expr κ} (unscaled : rest.Unscaled)

include unscaled

theorem factors_ne_nil : rest.factors ≠ [] := by
  cases rest with
  | mul operands =>
      have settled : SettledProduct operands := unscaled.canonical.settled
      rw [factors, factorsOf_eq_self settled.flat]
      rintro rfl
      exact absurd settled.several (by simp)
  | _ => exact List.cons_ne_nil _ _

theorem sorted_factors : Sorted rest.factors := by
  cases rest with
  | mul operands =>
      have settled : SettledProduct operands := unscaled.canonical.settled
      rw [factors, factorsOf_eq_self settled.flat]
      exact settled.ordered
  | _ => exact List.pairwise_singleton _ _

theorem unlike_factors : (rest.factors.map fun leaf => leaf.baseAndExponent.1).Nodup := by
  cases rest with
  | mul operands =>
      have settled : SettledProduct operands := unscaled.canonical.settled
      have symbolic := unscaled.symbolic
      rw [factors, factorsOf_eq_self settled.flat] at symbolic ⊢
      exact symbolicIn_eq_self symbolic ▸ settled.unlike
  | _ => exact List.nodup_singleton _

theorem splitCoefficient_eq : rest.splitCoefficient = (1, rest) := by
  have symbolic := unscaled.symbolic
  cases rest with
  | num value => exact nomatch symbolic (num value) List.mem_cons_self
  | mul operands =>
      have settled : SettledProduct operands := unscaled.canonical.settled
      rw [factors, factorsOf_eq_self settled.flat] at symbolic
      cases operands with
      | nil => rfl
      | cons head tail =>
          have first := symbolic head List.mem_cons_self
          cases head with
          | num => cases first
          | _ => rfl
  | _ => rfl

theorem asNumber?_eq : rest.asNumber? = none := by
  cases rest with
  | num value => exact nomatch unscaled.symbolic (num value) List.mem_cons_self
  | _ => rfl

end Unscaled

theorem unscaled_of_leaf {expr : Expr κ} (canonical : expr.Canonical)
    (symbolic : expr.asNumber? = none) (flat : expr.label ≠ .mul) : expr.Unscaled := by
  refine ⟨canonical, fun leaf member => ?_⟩
  rw [factors_eq_self flat, List.mem_singleton] at member
  rw [member, symbolic]

theorem mem_likeTerms {terms : List (Expr κ)} {group : Expr κ × κ} (member : group ∈ likeTerms terms) :
    ∃ term ∈ terms, term.splitCoefficient.2 = group.1 := by
  rw [likeTerms, Grouping.ofPairs_eq, List.map_map] at member
  obtain ⟨rest, among, rfl⟩ := List.mem_map.mp member
  rw [Grouping.mem_distinct, List.map_map] at among
  obtain ⟨term, inside, same⟩ := List.mem_map.mp among
  exact ⟨term, inside, same⟩

/-- A canonical term is a coefficient, neither zero nor one, in front of a term without a
coefficient, or it is such a term. -/
inductive Scaled : Expr κ → κ → Expr κ → Prop where
  | alone {rest : Expr κ} (unscaled : rest.Unscaled) : Scaled rest 1 rest
  | times {coefficient : κ} {rest : Expr κ} (unscaled : rest.Unscaled)
      (nonzero : Scalar.isZero coefficient = false) (notOne : Scalar.isOne coefficient = false) :
      Scaled (scaledBy coefficient rest) coefficient rest

theorem Scaled.unscaled {term rest : Expr κ} {coefficient : κ} (scaled : Scaled term coefficient rest) :
    rest.Unscaled := by
  cases scaled with
  | alone unscaled | times unscaled => exact unscaled

theorem scaled_of_canonical {term : Expr κ} (canonical : term.Canonical)
    (symbolic : term.asNumber? = none) :
    Scaled term term.splitCoefficient.1 term.splitCoefficient.2 := by
  cases term with
  | num => cases symbolic
  | mul operands =>
      have settled : SettledProduct operands := canonical.settled
      have parts := sorted_eq_append settled.ordered settled.single
      cases numbers : numbersIn operands with
      | nil =>
          have unscaled : (mul operands).Unscaled := by
            refine ⟨canonical, ?_⟩
            rw [factors, factorsOf_eq_self settled.flat]
            exact List.filterMap_eq_nil_iff.mp numbers
          rw [unscaled.splitCoefficient_eq]
          exact .alone unscaled
      | cons value others =>
          obtain rfl : others = [] := by
            have single := settled.single
            rw [numbers] at single
            exact List.eq_nil_of_length_eq_zero (Nat.le_zero.mp (Nat.le_of_succ_le_succ single))
          obtain ⟨nonzero, notOne⟩ := settled.proper value (numbers ▸ List.mem_cons_self)
          have whole : operands = num value :: symbolicIn operands := by
            rw [numbers] at parts
            exact parts
          have inner : ∀ leaf ∈ symbolicIn operands, leaf.Canonical ∧ leaf.label ≠ .mul := by
            intro leaf member
            have inside := (List.mem_filter.mp member).1
            exact ⟨canonical.child inside, settled.flat leaf inside⟩
          have symbols : ∀ leaf ∈ symbolicIn operands, leaf.asNumber? = none :=
            fun leaf member => asNumber?_of_symbolic member
          have unlike := settled.unlike
          have ordered := settled.ordered
          have several := settled.several
          generalize symbolicIn operands = leaves at whole inner symbols unlike
          subst whole
          have sorted : Sorted leaves := (List.pairwise_cons.mp ordered).2
          rcases leaves with _ | ⟨first, _ | ⟨second, rest⟩⟩
          · exact absurd several (by simp)
          · obtain ⟨leafCanonical, flat⟩ := inner first List.mem_cons_self
            have unscaled := unscaled_of_leaf leafCanonical (symbols first List.mem_cons_self) flat
            have same : scaledBy value first = mul [num value, first] := by
              rw [scaledBy, factors_eq_self flat]
            change Scaled (mul [num value, first]) value first
            rw [← same]
            exact .times unscaled nonzero notOne
          · have rebuilt : (mul (first :: second :: rest)).Canonical := by
              refine .node ⟨by simp, sorted, fun leaf member => (inner leaf member).2, ?_, ?_, ?_⟩
                fun leaf member => (inner leaf member).1
              · rw [numbersIn_eq_nil symbols]
                exact Nat.zero_le _
              · rw [numbersIn_eq_nil symbols]
                intro value member
                cases member
              · rwa [symbolicIn_eq_self symbols]
            have flat : factors (mul (first :: second :: rest)) = first :: second :: rest :=
              factorsOf_eq_self fun leaf member => (inner leaf member).2
            have same : scaledBy value (mul (first :: second :: rest)) =
                mul (num value :: first :: second :: rest) := by rw [scaledBy, flat]
            change Scaled (mul (num value :: first :: second :: rest)) value
              (mul (first :: second :: rest))
            rw [← same]
            exact .times ⟨rebuilt, by rwa [flat]⟩ nonzero notOne
  | _ => exact .alone (unscaled_of_leaf canonical rfl fun same => by cases same)

theorem Scaled.nesting_le {term rest leaf : Expr κ} {coefficient : κ}
    (scaled : Scaled term coefficient rest) (canonical : term.Canonical) (member : leaf ∈ rest.factors) :
    leaf.nesting ≤ term.nesting := by
  cases scaled with
  | alone => exact nesting_factors_le canonical member
  | times => exact (nesting_lt_mul (List.mem_cons_of_mem _ member)).le

theorem splitCoefficient_scaledBy {rest : Expr κ} (unscaled : rest.Unscaled) (coefficient : κ) :
    (scaledBy coefficient rest).splitCoefficient = (coefficient, rest) := by
  cases rest with
  | mul operands =>
      have settled : SettledProduct operands := unscaled.canonical.settled
      rw [scaledBy, factors, factorsOf_eq_self settled.flat]
      have several := settled.several
      rcases operands with _ | ⟨_, _ | ⟨_, _⟩⟩
      · exact absurd several (by simp)
      · exact absurd several (by simp)
      · rfl
  | _ => rfl

theorem canonical_scaledBy {rest : Expr κ} (unscaled : rest.Unscaled) {coefficient : κ}
    (nonzero : Scalar.isZero coefficient = false) (notOne : Scalar.isOne coefficient = false) :
    (scaledBy coefficient rest).Canonical := by
  have leaves := unscaled.canonical.factors
  refine .node ⟨?_, ?_, ?_, ?_, ?_, ?_⟩ ?_
  · obtain ⟨head, tail, found⟩ := List.exists_cons_of_ne_nil unscaled.factors_ne_nil
    rw [found]
    simp
  · refine List.pairwise_cons.mpr ⟨fun leaf member => ?_, unscaled.sorted_factors⟩
    exact precedes_weak.asymm (precedes_symbolic coefficient (unscaled.symbolic leaf member))
  · exact List.forall_mem_cons.mpr ⟨nofun, fun leaf member => (leaves leaf member).2⟩
  · rw [numbersIn_num, numbersIn_eq_nil unscaled.symbolic]
    exact le_rfl
  · rw [numbersIn_num, numbersIn_eq_nil unscaled.symbolic]
    exact List.forall_mem_cons.mpr ⟨⟨nonzero, notOne⟩, nofun⟩
  · rw [symbolicIn_num, symbolicIn_eq_self unscaled.symbolic]
    exact unscaled.unlike_factors
  · refine List.forall_mem_cons.mpr ⟨?_, fun leaf member => (leaves leaf member).1⟩
    exact canonical_leaf (unsigned_of_nonzero nonzero) rfl

end Expr

end Mechanism
