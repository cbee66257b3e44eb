import Mechanism.Proofs.Expr.Constructed
import Mechanism.Proofs.Expr.Refactoring

/-!
Sums and products do not depend on how they are written, as long as the order tells all operands apart
and nothing that is collected midway is taken for something else. Two symbols of one name tie in the
order, so their sum and their product do depend on it.
-/

namespace Mechanism

namespace Expr

variable {κ : Type} [Scalar κ]

theorem plus_eq_sum (left right : Expr κ) : left + right = sum [left, right] := rfl

theorem times_eq_product (left right : Expr κ) : left * right = product [left, right] := rfl

theorem told_of_ranks {expr : Expr κ} (ranks : (expr.children.map rank).Nodup) : Told expr :=
  fun _ among _ inside same _ => List.inj_on_of_nodup_map ranks among inside same

theorem told_ofTerms {first second : Expr κ} {rest : List (Expr κ)}
    (ranks : ((first :: second :: rest).map rank).Nodup) :
    Told (ofTerms (first :: second :: rest)) :=
  told_of_ranks (((arrange_perm (first :: second :: rest)).map rank).nodup_iff.mpr ranks)

theorem told_ofFactors {coefficient : κ} (nonzero : Scalar.isZero coefficient = false)
    (notOne : Scalar.isOne coefficient = false) {operands : List (Expr κ)}
    (ranks : (0 :: operands.map rank).Nodup) : Told (ofFactors coefficient operands) := by
  have sorted : (0 :: (arrange operands).map rank).Nodup :=
    (((arrange_perm operands).map rank).cons 0).nodup_iff.mpr ranks
  rw [ofFactors, nonzero, notOne, if_neg Bool.false_ne_true]
  split
  · intro first among
    cases among
  · contradiction
  · contradiction
  · exact told_of_ranks sorted

theorem collects_flat {terms : List (Expr κ)}
    (flat : ∀ leaf ∈ symbolicIn (addendsOf terms), leaf.splitCoefficient.2.label ≠ .add) :
    Collects terms := by
  intro group member _ _
  obtain ⟨leaf, among, same⟩ := mem_likeTerms member
  exact same ▸ flat leaf among

section

variable [Unrounded κ]

theorem sum_unlike {terms : List (Expr κ)} (canonical : ∀ term ∈ terms, term.Canonical)
    (flat : ∀ term ∈ terms, term.label ≠ .add)
    (unlike : ((symbolicIn terms).map fun term => term.splitCoefficient.2).Nodup) :
    sum terms = ofTerms (symbolicIn terms ++ constantIn terms) := by
  rw [sum_canonical canonical, addendsOf_eq_self flat, collectedIn_unlike canonical unlike]

/-- Operands of which each has a base of its own, with exponent one. -/
structure Single (operands : List (Expr κ)) : Prop where
  canonical : ∀ operand ∈ operands, operand.Canonical
  plain : ∀ leaf ∈ symbolicIn (factorsOf operands), leaf.baseAndExponent = (leaf, one)
  stays : ∀ leaf ∈ symbolicIn (factorsOf operands), ¬ leaf.Passes
  unlike : (symbolicIn (factorsOf operands)).Nodup

namespace Single

variable {operands others : List (Expr κ)} (single : Single operands)

include single

omit [Unrounded κ] in
theorem mem_basesIn {base : Expr κ} :
    base ∈ basesIn (factorsOf operands) ↔ base ∈ symbolicIn (factorsOf operands) := by
  rw [Expr.mem_basesIn]
  constructor
  · rintro ⟨leaf, member, rfl⟩
    rwa [single.plain leaf member]
  · exact fun member => ⟨base, member, by rw [single.plain base member]⟩

omit [Unrounded κ] in
theorem exponentsOf_eq {base : Expr κ} (member : base ∈ basesIn (factorsOf operands)) :
    exponentsOf base (factorsOf operands) = [one] := by
  have pairs : (symbolicIn (factorsOf operands)).map baseAndExponent =
      (symbolicIn (factorsOf operands)).map fun leaf => (leaf, one) :=
    List.map_congr_left single.plain
  rw [exponentsOf, pairs, Grouping.valuesOf_map_pair single.unlike fun _ => one,
    if_pos (single.mem_basesIn.mp member)]

theorem sum_exponents {base : Expr κ} (member : base ∈ basesIn (factorsOf operands)) :
    sum (exponentsOf base (factorsOf operands)) = one := by
  rw [single.exponentsOf_eq member]
  exact sumWith_number _ (unsigned_of_nonzero Neutral.isZero_one)

omit [Unrounded κ] in
theorem kept : Kept (factorsOf operands) :=
  fun base member passes => absurd passes (single.stays base (single.mem_basesIn.mp member))

omit [Unrounded κ] in
theorem continues
    (apart : ∀ base ∈ basesIn (factorsOf operands), base ∉ basesIn (factorsOf others)) :
    Continues operands others where
  collects base member := by
    rw [single.exponentsOf_eq member]
    exact nofun
  kept := single.kept
  released base member again := absurd again (apart base member)

theorem arranged
    (nonzero : Scalar.isZero ((numbersIn (factorsOf operands)).foldl (· * ·) 1) = false)
    (notOne : Scalar.isOne ((numbersIn (factorsOf operands)).foldl (· * ·) 1) = false)
    (ranks : (0 :: (symbolicIn (factorsOf operands)).map rank).Nodup) : Arranged operands where
  exponents base member := by
    rw [single.sum_exponents member]
    exact nofun
  factors := by
    have bases : (symbolicIn (factorsOf operands)).map (fun leaf => leaf.baseAndExponent.1) =
        symbolicIn (factorsOf operands) :=
      (List.map_congr_left fun leaf member => by rw [single.plain leaf member]; rfl).trans
        (List.map_id _)
    rw [product_unlike single.canonical (bases.symm ▸ single.unlike)]
    exact told_ofFactors nonzero notOne ranks

end Single

/-- Commutativity and associativity, where the order tells what meets and what is collected midway is
passed on. -/
theorem written_in_any_way (first second third : Expr κ) :
    (Told (first + second) → first + second = second + first) ∧
    ((∀ expr ∈ [first, second, third], expr.Canonical) →
      (Collects [first, second] → Collects [second, third] → Told (sum [first, second, third]) →
        first + second + third = first + (second + third)) ∧
      (Arranged [first, second] → first * second = second * first) ∧
      (Continues [first, second] [third] → Continues [second, third] [first] →
        Kept (factorsOf [first, second, third]) → Arranged [first, second, third] →
          first * second * third = first * (second * third))) := by
  simp only [plus_eq_sum, times_eq_product]
  refine ⟨sum_perm (List.Perm.swap _ _ _), fun canonical => ⟨?_, ?_, ?_⟩⟩
  · exact sum_assoc canonical
  · have both : ∀ expr ∈ [first, second], expr.Canonical := by simp_all
    exact product_perm both (List.Perm.swap _ _ _)
  · exact product_assoc canonical

end

namespace Ranked

open LeftOver

noncomputable def two : Expr RealNumber := num ⟨1 + 1⟩

noncomputable def wave : Expr RealNumber := call .cos (atom x)

theorem canonical_all : ∀ expr ∈ [atom x, two, wave], expr.Canonical := by
  have canonicalTwo : two.Canonical :=
    canonical_leaf (unsigned_of_nonzero (decide_eq_false (show (1 + 1 : ℝ) ≠ 0 by norm_num))) rfl
  have canonicalWave : wave.Canonical := .node rfl (by simp [wave, children, canonical_atom])
  simp [canonical_atom, canonicalTwo, canonicalWave]

theorem constantIn_two {terms : List (Expr RealNumber)} (only : numbersIn terms = [⟨1 + 1⟩]) :
    constantIn terms = [num (0 + ⟨1 + 1⟩)] := by
  have nonzero : Scalar.isZero (0 + ⟨1 + 1⟩ : RealNumber) = false :=
    decide_eq_false (show (0 + (1 + 1) : ℝ) ≠ 0 by norm_num)
  rw [constantIn, only, List.foldl_cons, List.foldl_nil, nonzero, if_neg Bool.false_ne_true,
    number_of_nonzero nonzero]

theorem told_sums : Told (atom x + two) ∧ Told (sum [atom x, two, wave]) := by
  constructor
  · rw [plus_eq_sum, sum_unlike (fun term member => canonical_all term (by simp at member ⊢; tauto))
      (by simp [two, label]) (by simp [symbolicIn, two, asNumber?]), constantIn_two rfl]
    exact told_ofTerms (by simp [rank])
  · rw [sum_unlike canonical_all (by simp [two, wave, label])
      (by simp [symbolicIn, two, wave, asNumber?, splitCoefficient]), constantIn_two rfl]
    exact told_ofTerms (by simp [rank, wave])

theorem single_of_nodup {operands : List (Expr RealNumber)}
    (inside : ∀ operand ∈ operands, operand ∈ [atom x, two, wave]) (unlike : operands.Nodup) :
    factorsOf operands = operands ∧ Single operands := by
  have flat : factorsOf operands = operands := by
    refine factorsOf_eq_self fun operand member => ?_
    have among := inside operand member
    simp only [List.mem_cons, List.not_mem_nil, or_false] at among
    rcases among with rfl | rfl | rfl <;> rintro ⟨⟩
  have shape (leaf : Expr RealNumber) (member : leaf ∈ symbolicIn (factorsOf operands)) :
      leaf = atom x ∨ leaf = wave := by
    rw [flat] at member
    have among := inside leaf (List.mem_filter.mp member).1
    have symbolic := asNumber?_of_symbolic member
    simp only [List.mem_cons, List.not_mem_nil, or_false] at among
    rcases among with rfl | rfl | rfl
    · exact Or.inl rfl
    · cases symbolic
    · exact Or.inr rfl
  refine ⟨flat, fun operand member => canonical_all operand (inside operand member), ?_, ?_, ?_⟩
  · intro leaf member
    rcases shape leaf member with rfl | rfl <;> rfl
  · intro leaf member
    rcases shape leaf member with rfl | rfl <;> rintro (passes | passes) <;> cases passes
  · rw [flat]
    exact unlike.filter _

theorem coefficient_two :
    Scalar.isZero (1 * ⟨1 + 1⟩ : RealNumber) = false ∧
      Scalar.isOne (1 * ⟨1 + 1⟩ : RealNumber) = false :=
  ⟨decide_eq_false (show (1 * (1 + 1) : ℝ) ≠ 0 by norm_num),
    decide_eq_false (show (1 * (1 + 1) : ℝ) ≠ 1 by norm_num)⟩

/-- An atom, a number and a call are told by their ranks. -/
theorem written_ranked : atom x + two = two + atom x ∧
    atom x + two + wave = atom x + (two + wave) ∧ atom x * two = two * atom x ∧
    atom x * two * wave = atom x * (two * wave) := by
  obtain ⟨commutes, others⟩ := written_in_any_way (atom x) two wave
  obtain ⟨associates, turns, regroups⟩ := others canonical_all
  obtain ⟨frontLeaves, front⟩ : factorsOf [atom x, two] = _ ∧ Single [atom x, two] :=
    single_of_nodup (by simp) (by simp [two])
  obtain ⟨backLeaves, back⟩ : factorsOf [two, wave] = _ ∧ Single [two, wave] :=
    single_of_nodup (by simp) (by simp [two, wave])
  obtain ⟨allLeaves, all⟩ : factorsOf [atom x, two, wave] = _ ∧ Single [atom x, two, wave] :=
    single_of_nodup (by simp) (by simp [two, wave])
  refine ⟨commutes told_sums.1, associates ?_ ?_ told_sums.2, turns ?_, regroups ?_ ?_ all.kept ?_⟩
  · exact collects_flat (by simp [addendsOf, addends, symbolicIn, two, asNumber?,
      splitCoefficient, label])
  · exact collects_flat (by simp [addendsOf, addends, symbolicIn, two, wave, asNumber?,
      splitCoefficient, label])
  · refine front.arranged ?_ ?_ ?_ <;> rw [frontLeaves]
    · exact coefficient_two.1
    · exact coefficient_two.2
    · simp [symbolicIn, two, asNumber?, rank]
  · refine front.continues fun base member => ?_
    rw [front.mem_basesIn, frontLeaves] at member
    simp_all [mem_basesIn, factorsOf, factors, symbolicIn, two, wave, asNumber?, baseAndExponent]
  · refine back.continues fun base member => ?_
    rw [back.mem_basesIn, backLeaves] at member
    simp_all [mem_basesIn, factorsOf, factors, symbolicIn, two, wave, asNumber?, baseAndExponent]
  · refine all.arranged ?_ ?_ ?_ <;> rw [allLeaves]
    · exact coefficient_two.1
    · exact coefficient_two.2
    · simp [symbolicIn, two, wave, asNumber?, rank]

end Ranked

namespace Twins

open LeftOver

def twin : Atom := .whole ⟨2, "x", .scalar, .real⟩

theorem arrange_twins {first second : Atom} (same : first.fingerprint = second.fingerprint) :
    arrange [(atom first : Expr κ), atom second] = [atom first, atom second] := by
  have tie : precedes (atom second : Expr κ) (atom first) = false := by
    simp [precedes, rank, fingerprint_atom, same]
  simp [arrange, Ordering.sort, Ordering.place, tie]

theorem canonical_twins (first second : Atom) :
    ∀ expr ∈ [(atom first : Expr RealNumber), atom second], expr.Canonical := by
  simp [canonical_atom]

theorem symbolicIn_twins (first second : Atom) :
    symbolicIn [(atom first : Expr RealNumber), atom second] = [atom first, atom second] := rfl

theorem sum_twins {first second : Atom} (differ : first ≠ second)
    (same : first.fingerprint = second.fingerprint) :
    (atom first + atom second : Expr RealNumber) = add [atom first, atom second] := by
  rw [plus_eq_sum, sum_unlike (canonical_twins first second) (by simp [label])
    (by simpa [symbolicIn_twins, splitCoefficient] using differ), symbolicIn_twins,
    constantIn_symbolic (by simp [asNumber?]), List.append_nil]
  exact congrArg add (arrange_twins same)

theorem product_twins {first second : Atom} (differ : first ≠ second)
    (same : first.fingerprint = second.fingerprint) :
    (atom first * atom second : Expr RealNumber) = mul [atom first, atom second] := by
  have leaves : factorsOf [(atom first : Expr RealNumber), atom second] =
    [atom first, atom second] := rfl
  have unit : (numbersIn [(atom first : Expr RealNumber), atom second]).foldl (· * ·) 1 = 1 := rfl
  rw [times_eq_product, product_unlike (canonical_twins first second)
    (by simpa [leaves, symbolicIn_twins, baseAndExponent] using differ), leaves, symbolicIn_twins,
    unit, ofFactors, arrange_twins same, Neutral.isZero_one, Neutral.isOne_one]
  rfl

/-- The sum and the product of two symbols of one name keep the order in which they were written. -/
theorem twins_in_written_order :
    (atom x + atom twin : Expr RealNumber) ≠ atom twin + atom x ∧
      (atom x * atom twin : Expr RealNumber) ≠ atom twin * atom x := by
  have differ : x ≠ twin := by decide
  have same : x.fingerprint = twin.fingerprint := rfl
  rw [sum_twins differ same, sum_twins differ.symm same.symm, product_twins differ same,
    product_twins differ.symm same.symm]
  simp [differ, differ.symm]

end Twins

end Expr

end Mechanism
