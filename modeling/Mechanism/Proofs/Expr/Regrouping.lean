import Mechanism.Proofs.Expr.Canonical

/-!
Sums that are written in different ways. What a sum comes to is given by the total of the numbers in
it and by the total coefficient of each term; so where coefficients are added without rounding, the
order of the operands and the sums among them do not matter. Two things do: the order must tell
different operands apart, and no sum may be left over among the like terms.
-/

namespace Mechanism

namespace Expr

variable {κ : Type} [Scalar κ]

/-- The order tells different operands of the node apart. -/
def Told (expr : Expr κ) : Prop :=
  ∀ first ∈ expr.children, ∀ second ∈ expr.children, first.rank = second.rank →
    first.fingerprint = second.fingerprint → first = second

theorem arrange_eq_of_perm {left right : List (Expr κ)} (perm : left.Perm right)
    (told : ∀ first ∈ left, ∀ second ∈ left, first.rank = second.rank →
      first.fingerprint = second.fingerprint → first = second) : arrange left = arrange right := by
  have here := arrange_perm left
  have there := arrange_perm right
  refine List.Perm.eq_of_pairwise ?_ (sorted_arrange left) (sorted_arrange right)
    (here.trans (perm.trans there.symm))
  intro first second among inside notAfter notBefore
  simp only [precedes, Bool.or_eq_false_iff, Bool.and_eq_false_iff, decide_eq_false_iff_not,
    UInt64.lt_iff_toNat_lt, beq_eq_false_iff_ne] at notAfter notBefore
  refine told first (here.mem_iff.mp among) second
    (perm.mem_iff.mpr (there.mem_iff.mp inside)) (by omega) ?_
  exact UInt64.toNat_inj.mp (by omega)

theorem ofTerms_eq_of_perm {left right : List (Expr κ)} (perm : left.Perm right)
    (told : Told (ofTerms left)) : ofTerms left = ofTerms right := by
  match left, right, perm.length_eq with
  | [], [], _ => rfl
  | [term], [other], _ => rw [List.singleton_perm_singleton.mp perm]
  | first :: second :: rest, _ :: _ :: _, _ =>
      have same := arrange_perm (first :: second :: rest)
      refine congrArg add (arrange_eq_of_perm perm fun one among other inside => ?_)
      exact told one (same.mem_iff.mpr among) other (same.mem_iff.mpr inside)

/-- Numbers that are added and multiplied without rounding. -/
class Unrounded (κ : Type) [Scalar κ] : Prop extends Neutral κ where
  add_comm : ∀ left right : κ, left + right = right + left
  add_assoc : ∀ first second third : κ, first + second + third = first + (second + third)
  mul_comm : ∀ left right : κ, left * right = right * left
  mul_assoc : ∀ first second third : κ, first * second * third = first * (second * third)
  eq_zero : ∀ value : κ, Scalar.isZero value = true → value = 0
  eq_one : ∀ value : κ, Scalar.isOne value = true → value = 1
  isZero_mul : ∀ left right : κ,
    Scalar.isZero (left * right) = (Scalar.isZero left || Scalar.isZero right)

noncomputable instance : Unrounded RealNumber where
  add_comm left right := congrArg RealNumber.mk (AddCommMagma.add_comm left.value right.value)
  add_assoc first second third :=
    congrArg RealNumber.mk (AddSemigroup.add_assoc first.value second.value third.value)
  mul_comm left right := congrArg RealNumber.mk (CommMagma.mul_comm left.value right.value)
  mul_assoc first second third :=
    congrArg RealNumber.mk (Semigroup.mul_assoc first.value second.value third.value)
  eq_zero value zero := congrArg RealNumber.mk ((Exact.isEqual_iff value 0).mp zero)
  eq_one value one := congrArg RealNumber.mk ((Exact.isEqual_iff value 1).mp one)
  isZero_mul left right := by
    rw [Bool.eq_iff_iff, Bool.or_eq_true, isZero_iff, isZero_iff, isZero_iff, Exact.real_mul]
    exact mul_eq_zero

namespace Unrounded

variable [Unrounded κ]

theorem zero_plus (value : κ) : 0 + value = value := by
  refine Neutral.zero_add value ?_
  unfold Scalar.unsigned
  split
  · rename_i zero
    exact (eq_zero value zero).symm
  · rfl

instance : @Std.Associative κ (· + ·) := ⟨add_assoc⟩

instance : @Std.Commutative κ (· + ·) := ⟨add_comm⟩

theorem foldl_add_append (left right : List κ) :
    (left ++ right).foldl (· + ·) 0 = left.foldl (· + ·) 0 + right.foldl (· + ·) 0 := by
  have later := @List.foldl_assoc κ (· + ·) _ right (left.foldl (· + ·) 0) 0
  rwa [add_comm _ 0, zero_plus, ← List.foldl_append] at later

end Unrounded

def asPair (term : Expr κ) : Expr κ × κ := (term.splitCoefficient.2, term.splitCoefficient.1)

def coefficientOf (rest : Expr κ) (terms : List (Expr κ)) : κ :=
  (Grouping.valuesOf rest (terms.map asPair)).foldl (· + ·) 0

def constantOf (leaves : List (Expr κ)) : κ := (numbersIn leaves).foldl (· + ·) 0

theorem likeTerms_eq (terms : List (Expr κ)) :
    likeTerms terms = (Grouping.distinct (terms.map fun term => term.splitCoefficient.2)).map
      fun rest => (rest, coefficientOf rest terms) := by
  rw [likeTerms, Grouping.ofPairs_eq, List.map_map, List.map_map]
  rfl

theorem coefficientOf_absent {terms : List (Expr κ)} {rest : Expr κ}
    (absent : ∀ term ∈ terms, term.splitCoefficient.2 ≠ rest) : coefficientOf rest terms = 0 := by
  rw [coefficientOf, Grouping.valuesOf_eq_nil, List.foldl_nil]
  rw [List.map_map, List.mem_map]
  rintro ⟨term, member, same⟩
  exact absent term member same

theorem mem_likeTerms_iff {terms : List (Expr κ)} {group : Expr κ × κ} :
    group ∈ likeTerms terms ↔ (∃ term ∈ terms, term.splitCoefficient.2 = group.1) ∧
      group.2 = coefficientOf group.1 terms := by
  rw [likeTerms_eq, List.mem_map]
  constructor
  · rintro ⟨rest, among, rfl⟩
    exact ⟨List.mem_map.mp (Grouping.mem_distinct.mp among), rfl⟩
  · rintro ⟨among, total⟩
    exact ⟨group.1, Grouping.mem_distinct.mpr (List.mem_map.mpr among), Prod.ext rfl total.symm⟩

section

variable [Unrounded κ]

theorem coefficientOf_append (rest : Expr κ) (left right : List (Expr κ)) :
    coefficientOf rest (left ++ right) = coefficientOf rest left + coefficientOf rest right := by
  rw [coefficientOf, List.map_append, Grouping.valuesOf_append, Unrounded.foldl_add_append]
  rfl

theorem coefficientOf_perm (rest : Expr κ) {left right : List (Expr κ)} (perm : left.Perm right) :
    coefficientOf rest left = coefficientOf rest right :=
  ((perm.map asPair).filterMap _).foldl_op_eq

theorem constantOf_append (left right : List (Expr κ)) :
    constantOf (left ++ right) = constantOf left + constantOf right := by
  rw [constantOf, numbersIn_append, Unrounded.foldl_add_append]
  rfl

theorem constantOf_perm {left right : List (Expr κ)} (perm : left.Perm right) :
    constantOf left = constantOf right :=
  (numbersIn_perm perm).foldl_op_eq

theorem likeTerms_perm {left right : List (Expr κ)} (perm : left.Perm right) :
    (likeTerms left).Perm (likeTerms right) := by
  refine (List.perm_ext_iff_of_nodup ?_ ?_).mpr fun group => ?_
  · exact (nodup_likeTerms left).of_map
  · exact (nodup_likeTerms right).of_map
  · rw [mem_likeTerms_iff, mem_likeTerms_iff, coefficientOf_perm _ perm]
    simp only [perm.mem_iff]

omit [Unrounded κ] in
theorem nestingOf_perm {left right : List (Expr κ)} (perm : left.Perm right) :
    nestingOf left = nestingOf right :=
  perm.foldl_eq' (fun one _ other _ most => by omega) 0

theorem sum_perm {left right : List (Expr κ)} (perm : left.Perm right) (told : Told (sum left)) :
    sum left = sum right := by
  have leaves : (addendsOf left).Perm (addendsOf right) := by
    rw [addendsOf_eq, addendsOf_eq]
    exact perm.flatMap_right addends
  have constant := constantOf_perm leaves
  have like := likeTerms_perm (symbolicIn_perm leaves)
  unfold constantOf at constant
  rw [sum, fuelFor, sumWith] at told
  rw [sum, sum, ← nestingOf_perm perm, fuelFor, sumWith, sumWith]
  simp only [← constant] at told ⊢
  exact ofTerms_eq_of_perm ((like.filterMap _).append_right _) told

/-- No sum is left over among the like terms. -/
def Collects (terms : List (Expr κ)) : Prop :=
  ∀ group ∈ likeTerms (symbolicIn (addendsOf terms)), Scalar.isZero group.2 = false →
    Scalar.isOne group.2 = true → group.1.label ≠ .add

omit [Unrounded κ] in
theorem Collects.merges {terms : List (Expr κ)} (collects : Collects terms) : Merges terms :=
  fun group member nonzero isOne isSum => absurd isSum (collects group member nonzero isOne)

theorem asPair_of_scaled? {group : Expr κ × κ} (unscaled : group.1.Unscaled) {term : Expr κ}
    (scaled : scaled? group = some term) : asPair term = group := by
  obtain ⟨_, ⟨isOne, rfl⟩ | ⟨_, rfl⟩⟩ := scaled?_cases scaled
  · rw [asPair, unscaled.splitCoefficient_eq, ← Unrounded.eq_one group.2 isOne]
  · rw [asPair, splitCoefficient_scaledBy unscaled]

section

variable {leaves : List (Expr κ)} (canonical : ∀ leaf ∈ leaves, leaf.Canonical)

include canonical

theorem mem_collectedIn {term : Expr κ} : term ∈ collectedIn leaves ↔
    ∃ rest : Expr κ, rest.Unscaled ∧
      scaled? (rest, coefficientOf rest (symbolicIn leaves)) = some term := by
  rw [collectedIn, List.mem_filterMap]
  constructor
  · rintro ⟨group, member, scaled⟩
    refine ⟨group.1, unscaled_of_likeTerms canonical member, ?_⟩
    rwa [← (mem_likeTerms_iff.mp member).2]
  · rintro ⟨rest, _, scaled⟩
    refine ⟨_, mem_likeTerms_iff.mpr ⟨?_, rfl⟩, scaled⟩
    by_contra absent
    have nonzero := (scaled?_cases scaled).1
    rw [coefficientOf_absent fun term member same => absent ⟨term, member, same⟩,
      Neutral.isZero_zero] at nonzero
    cases nonzero

theorem asPair_collectedIn {term : Expr κ} (member : term ∈ collectedIn leaves) :
    asPair term = (term.splitCoefficient.2, coefficientOf term.splitCoefficient.2
      (symbolicIn leaves)) := by
  obtain ⟨rest, unscaled, scaled⟩ := (mem_collectedIn canonical).mp member
  have pair := asPair_of_scaled? unscaled scaled
  have same : term.splitCoefficient.2 = rest := congrArg Prod.fst pair
  rw [pair, same]

omit [Unrounded κ] in
theorem unlike_collectedIn :
    ((collectedIn leaves).map fun term => term.splitCoefficient.2).Nodup :=
  Grouping.nodup_filterMap (fun _ member _ scaled =>
    (scaled_of_scaled? (unscaled_of_likeTerms canonical member) scaled).2.2) (nodup_likeTerms _)

theorem symbolic_collectedIn : ∀ term ∈ collectedIn leaves, term.asNumber? = none := by
  intro term member
  obtain ⟨rest, unscaled, scaled⟩ := (mem_collectedIn canonical).mp member
  exact (scaled_of_scaled? unscaled scaled).2.1

theorem coefficientOf_collectedIn (rest : Expr κ) :
    coefficientOf rest (collectedIn leaves) = coefficientOf rest (symbolicIn leaves) := by
  have unlike := unlike_collectedIn canonical
  by_cases known : ∃ term ∈ collectedIn leaves, term.splitCoefficient.2 = rest
  · obtain ⟨term, member, rfl⟩ := known
    have pair := asPair_collectedIn canonical member
    have keys : (((collectedIn leaves).map asPair).map Prod.fst).Nodup := by
      rw [List.map_map]
      exact unlike
    have alone : Grouping.valuesOf term.splitCoefficient.2 ((collectedIn leaves).map asPair) =
        [(asPair term).2] := Grouping.valuesOf_apart keys (List.mem_map_of_mem member)
    rw [coefficientOf, alone, pair, List.foldl_cons, List.foldl_nil, Unrounded.zero_plus]
  · rw [coefficientOf_absent fun term member same => known ⟨term, member, same⟩]
    by_cases present : ∃ term ∈ symbolicIn leaves, term.splitCoefficient.2 = rest
    · refine (Unrounded.eq_zero _ ?_).symm
      by_contra nonzero
      rw [Bool.not_eq_true] at nonzero
      have member := mem_likeTerms_iff.mpr
        (show (∃ term ∈ symbolicIn leaves, term.splitCoefficient.2 =
          (rest, coefficientOf rest (symbolicIn leaves)).1) ∧ _ from ⟨present, rfl⟩)
      have unscaled := unscaled_of_likeTerms canonical member
      obtain ⟨term, scaled⟩ : ∃ term, scaled?
          (rest, coefficientOf rest (symbolicIn leaves)) = some term := by
        rw [scaled?, nonzero, if_neg Bool.false_ne_true]
        split <;> exact ⟨_, rfl⟩
      exact known ⟨term, (mem_collectedIn canonical).mpr ⟨rest, unscaled, scaled⟩,
        (scaled_of_scaled? unscaled scaled).2.2⟩
    · rw [coefficientOf_absent fun term member same => present ⟨term, member, same⟩]

omit canonical in
theorem constantOf_constantIn : constantOf (constantIn leaves) = constantOf leaves := by
  unfold constantIn
  split
  · rename_i zero
    exact (Unrounded.eq_zero _ zero).symm
  · rename_i nonzero
    rw [Bool.not_eq_true] at nonzero
    rw [number_of_nonzero nonzero, constantOf, numbersIn_num]
    exact Unrounded.zero_plus _

end

theorem collectedIn_perm {left right : List (Expr κ)} (here : ∀ leaf ∈ left, leaf.Canonical)
    (there : ∀ leaf ∈ right, leaf.Canonical)
    (same : ∀ rest, coefficientOf rest (symbolicIn left) = coefficientOf rest (symbolicIn right)) :
    (collectedIn left).Perm (collectedIn right) := by
  refine (List.perm_ext_iff_of_nodup ?_ ?_).mpr fun term => ?_
  · exact (unlike_collectedIn here).of_map
  · exact (unlike_collectedIn there).of_map
  · rw [mem_collectedIn here, mem_collectedIn there]
    simp only [same]

omit [Unrounded κ] in
theorem constantIn_congr {left right : List (Expr κ)} (same : constantOf left = constantOf right) :
    constantIn left = constantIn right := by
  unfold constantOf at same
  rw [constantIn, constantIn, same]

structure Agree (left right : List (Expr κ)) : Prop where
  coefficients : ∀ rest, coefficientOf rest (symbolicIn left) = coefficientOf rest (symbolicIn right)
  constant : constantOf left = constantOf right

theorem Agree.append {left right : List (Expr κ)} (agree : Agree left right)
    (others : List (Expr κ)) : Agree (left ++ others) (right ++ others) where
  coefficients rest := by
    rw [symbolicIn_append, symbolicIn_append, coefficientOf_append, coefficientOf_append,
      agree.coefficients]
  constant := by rw [constantOf_append, constantOf_append, agree.constant]

theorem agree_of_perm {left right : List (Expr κ)} (perm : left.Perm right) : Agree left right :=
  ⟨fun rest => coefficientOf_perm rest (symbolicIn_perm perm), constantOf_perm perm⟩

theorem agree_ofTerms {terms : List (Expr κ)} (flat : ∀ term ∈ terms, term.label ≠ .add) :
    Agree (addends (ofTerms terms)) terms := by
  match terms with
  | [] =>
      refine ⟨fun rest => rfl, ?_⟩
      exact Unrounded.zero_plus 0
  | [term] =>
      rw [ofTerms, addends_eq_self (flat term List.mem_cons_self)]
      exact ⟨fun _ => rfl, rfl⟩
  | first :: second :: rest =>
      have perm := arrange_perm (first :: second :: rest)
      refine agree_of_perm ?_
      rw [ofTerms, addends, addendsOf_eq_self fun term member => flat term (perm.mem_iff.mp member)]
      · exact perm
      all_goals simp

omit [Unrounded κ] in
theorem flat_collectedIn {terms : List (Expr κ)} (collects : Collects terms) :
    ∀ term ∈ collectedIn (addendsOf terms), term.label ≠ .add := by
  intro term member
  obtain ⟨group, among, scaled⟩ := List.mem_filterMap.mp member
  obtain ⟨nonzero, ⟨isOne, rfl⟩ | ⟨_, rfl⟩⟩ := scaled?_cases scaled
  · exact collects group among nonzero isOne
  · exact nofun

theorem agree_sum {terms : List (Expr κ)} (canonical : ∀ term ∈ terms, term.Canonical)
    (collects : Collects terms) : Agree (addends (sum terms)) (addendsOf terms) := by
  have leaves : ∀ leaf ∈ addendsOf terms, leaf.Canonical :=
    fun leaf member => (canonical_addendsOf canonical leaf member).1
  have symbols := symbolic_collectedIn leaves
  have numerals : ∀ term ∈ constantIn (addendsOf terms), ∃ value, term = num value := by
    unfold constantIn
    split
    · exact nofun
    · exact List.forall_mem_singleton.mpr ⟨_, rfl⟩
  have outcome : Agree (addends (sum terms))
      (collectedIn (addendsOf terms) ++ constantIn (addendsOf terms)) := by
    rw [sum_canonical canonical]
    refine agree_ofTerms (List.forall_mem_append.mpr ⟨flat_collectedIn collects, ?_⟩)
    intro term member
    obtain ⟨value, rfl⟩ := numerals term member
    exact nofun
  refine ⟨fun rest => ?_, ?_⟩
  · have none : symbolicIn (constantIn (addendsOf terms)) = [] := by
      refine List.filter_eq_nil_iff.mpr fun term member => ?_
      obtain ⟨value, rfl⟩ := numerals term member
      exact nofun
    rw [outcome.coefficients, symbolicIn_append, none, List.append_nil, symbolicIn_eq_self symbols,
      coefficientOf_collectedIn leaves]
  · have none : constantOf (collectedIn (addendsOf terms)) = 0 := by
      rw [constantOf, numbersIn_eq_nil symbols, List.foldl_nil]
    rw [outcome.constant, constantOf_append, none, Unrounded.zero_plus, constantOf_constantIn]

theorem sum_congr {left right : List (Expr κ)} (here : ∀ term ∈ left, term.Canonical)
    (there : ∀ term ∈ right, term.Canonical) (agree : Agree (addendsOf left) (addendsOf right))
    (told : Told (sum left)) : sum left = sum right := by
  rw [sum_canonical here] at told ⊢
  rw [sum_canonical there, ← constantIn_congr agree.constant]
  refine ofTerms_eq_of_perm (List.Perm.append_right _ ?_) told
  exact collectedIn_perm (fun leaf member => (canonical_addendsOf here leaf member).1)
    (fun leaf member => (canonical_addendsOf there leaf member).1) agree.coefficients

theorem sum_sum {terms others : List (Expr κ)} (canonical : ∀ term ∈ terms, term.Canonical)
    (also : ∀ term ∈ others, term.Canonical) (collects : Collects terms)
    (told : Told (sum (terms ++ others))) : sum (sum terms :: others) = sum (terms ++ others) := by
  refine (sum_congr (List.forall_mem_append.mpr ⟨canonical, also⟩)
    (List.forall_mem_cons.mpr ⟨canonical_sum canonical collects.merges, also⟩) ?_ told).symm
  have agree := (agree_sum canonical collects).append (addendsOf others)
  rw [addendsOf_eq (terms ++ others), List.flatMap_append, ← addendsOf_eq, ← addendsOf_eq, addendsOf]
  exact ⟨fun rest => (agree.coefficients rest).symm, agree.constant.symm⟩

theorem sum_assoc {first second third : Expr κ}
    (canonical : ∀ term ∈ [first, second, third], term.Canonical)
    (left : Collects [first, second]) (right : Collects [second, third])
    (told : Told (sum [first, second, third])) :
    sum [sum [first, second], third] = sum [first, sum [second, third]] := by
  have front : ∀ term ∈ [first, second], term.Canonical := by simp_all
  have back : ∀ term ∈ [second, third], term.Canonical := by simp_all
  have turned : sum [first, second, third] = sum [second, third, first] :=
    sum_perm (@List.perm_append_comm _ [first] [second, third]) told
  have toldTurned : Told (sum ([second, third] ++ [first])) := turned ▸ told
  have inner := sum_sum back (by simp_all) right toldTurned
  calc sum [sum [first, second], third] = sum [first, second, third] :=
        sum_sum front (by simp_all) left told
    _ = sum [second, third, first] := turned
    _ = sum [sum [second, third], first] := inner.symm
    _ = sum [first, sum [second, third]] :=
        sum_perm (List.Perm.swap _ _ _) (inner.symm ▸ toldTurned)

end

end Expr

end Mechanism
