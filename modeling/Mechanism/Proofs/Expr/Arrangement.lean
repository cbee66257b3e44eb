import Mechanism.Proofs.Expr.Soundness

/-!
What the constructors leave as it is: different factors that are neither numbers nor products nor
powers, and terms that are not alike, are only put in order.
-/

namespace Mechanism

namespace Grouping

variable {α β : Type} [BEq α] [LawfulBEq α]

theorem distinct_eq_self {items : List α} (unique : items.Nodup) : distinct items = items :=
  (distinct_sublist items).eq_of_length_le
    (unique.subperm fun _ member => mem_distinct.mpr member).length_le

theorem valuesOf_apart {pairs : List (α × β)} (unique : (pairs.map Prod.fst).Nodup)
    {pair : α × β} (member : pair ∈ pairs) : valuesOf pair.1 pairs = [pair.2] := by
  induction pairs with
  | nil => cases member
  | cons head tail ih =>
      rw [List.map_cons, List.nodup_cons] at unique
      rcases List.mem_cons.mp member with rfl | later
      · have none := valuesOf_eq_nil unique.1
        rw [valuesOf] at none ⊢
        rw [List.filterMap_cons_some (by rw [beq_self_eq_true, if_pos rfl]), none]
      · have differs : (head.1 == pair.1) = false := by
          rw [beq_eq_false_iff_ne]
          intro same
          exact unique.1 (same ▸ List.mem_map_of_mem later)
        have rest := ih unique.2 later
        rw [valuesOf] at rest ⊢
        rw [List.filterMap_cons_none (by rw [differs]; rfl), rest]

theorem ofPairs_apart [Hashable α] {pairs : List (α × β)} (unique : (pairs.map Prod.fst).Nodup) :
    ofPairs pairs = pairs.map fun pair => (pair.1, [pair.2]) := by
  rw [ofPairs_eq, distinct_eq_self unique, List.map_map]
  exact List.map_congr_left fun pair member => by
    rw [Function.comp_apply, valuesOf_apart unique member]

end Grouping

namespace Expr

variable {κ : Type} [Scalar κ]

structure Plain (expr : Expr κ) : Prop where
  symbolic : expr.asNumber? = none
  factors_eq : expr.factors = [expr]
  base_eq : expr.baseAndExponent = (expr, one)
  pieces_eq : pieces expr = [expr]

theorem numbersIn_num (value : κ) (rest : List (Expr κ)) :
    numbersIn (num value :: rest) = value :: numbersIn rest := rfl

theorem symbolicIn_num (value : κ) (rest : List (Expr κ)) :
    symbolicIn (num value :: rest) = symbolicIn rest := rfl

theorem numbersIn_plain {parts : List (Expr κ)} (plain : ∀ part ∈ parts, part.Plain) :
    numbersIn parts = [] :=
  List.filterMap_eq_nil_iff.mpr fun part member => (plain part member).symbolic

theorem symbolicIn_plain {parts : List (Expr κ)} (plain : ∀ part ∈ parts, part.Plain) :
    symbolicIn parts = parts :=
  List.filter_eq_self.mpr fun part member => by rw [(plain part member).symbolic]; rfl

theorem Plain.alone {expr : Expr κ} (plain : expr.Plain) :
    numbersIn [expr] = [] ∧ symbolicIn [expr] = [expr] := by
  have all : ∀ part ∈ [expr], part.Plain := by simpa using plain
  exact ⟨numbersIn_plain all, symbolicIn_plain all⟩

theorem Plain.factorsOf_number {expr : Expr κ} (plain : expr.Plain) (value : κ) :
    factorsOf [num value, expr] = [num value, expr] := by
  rw [factorsOf, factorsOf, plain.factors_eq]
  rfl

theorem plain_atom (symbol : Atom) : (atom symbol : Expr κ).Plain := ⟨rfl, rfl, rfl, rfl⟩

theorem plain_call (function : Elementary) (argument : Expr κ) : (call function argument).Plain :=
  ⟨rfl, rfl, rfl, rfl⟩

theorem plain_cond (relation : Relation) (left right chosen otherwise : Expr κ) :
    (cond relation left right chosen otherwise).Plain := ⟨rfl, rfl, rfl, rfl⟩

theorem sumWith_apart {fuel : Nat} (terms scaled : List (Expr κ))
    (numbers : Scalar.isZero ((numbersIn (addendsOf terms)).foldl (· + ·) 0) = true)
    (unique : ((symbolicIn (addendsOf terms)).map fun part => part.splitCoefficient.2).Nodup)
    (each : (symbolicIn (addendsOf terms)).map (fun part => scaledTerm? (productWith fuel)
      (part.splitCoefficient.2, 0 + part.splitCoefficient.1)) = scaled.map some) :
    sumWith (fuel + 1) terms = ofTerms scaled := by
  have like : likeTerms (symbolicIn (addendsOf terms)) = (symbolicIn (addendsOf terms)).map
      fun part => (part.splitCoefficient.2, 0 + part.splitCoefficient.1) := by
    rw [likeTerms]
    simp only
    rw [Grouping.ofPairs_apart (by simpa [Function.comp_def] using unique)]
    simp only [List.map_map, Function.comp_def, List.foldl_cons, List.foldl_nil]
  have collected : (likeTerms (symbolicIn (addendsOf terms))).filterMap
      (scaledTerm? (productWith fuel)) = scaled := by
    have joined := congrArg (List.filterMap id) each
    rw [List.filterMap_map, List.filterMap_map, Function.id_comp, Function.id_comp,
      List.filterMap_some] at joined
    rw [like, List.filterMap_map]
    exact joined
  rw [sumWith]
  simp only [collected, numbers, if_true, List.append_nil]

variable [Exact κ]

theorem unit_coefficient :
    Scalar.isZero (0 + 1 : κ) = false ∧ Scalar.isOne (0 + 1 : κ) = true := by
  have value : Exact.real (0 + 1 : κ) = 1 := by
    rw [Exact.real_add, Exact.real_zero, Exact.real_one, zero_add]
  refine ⟨?_, (isOne_iff _).mpr value⟩
  rw [← Bool.not_eq_true, isZero_iff, value]
  exact one_ne_zero

theorem powerWith_unit (fuel : Nat) (base : Expr κ) :
    powerWith (fuel + 1) base (sumWith (fuel + 1) [one]) = base := by
  obtain ⟨nonzero, isOne⟩ := unit_coefficient (κ := κ)
  have unit : sumWith (fuel + 1) [one] = (num (0 + 1) : Expr κ) := by
    change ofTerms ([] ++ if Scalar.isZero (0 + 1 : κ) then [] else [number (0 + 1)]) = _
    rw [nonzero, if_neg Bool.false_ne_true]
    change number (0 + 1) = _
    rw [number, Scalar.unsigned, nonzero, if_neg Bool.false_ne_true]
  have noZero : (num (0 + 1) : Expr κ).isZero = false := nonzero
  have one : (num (0 + 1) : Expr κ).isOne = true := isOne
  rw [unit]
  unfold powerWith
  rw [noZero, one, if_neg Bool.false_ne_true, if_pos rfl]

section

variable {parts : List (Expr κ)} (plain : ∀ part ∈ parts, part.Plain) (unique : parts.Nodup)

include plain unique

theorem powers_plain (fuel : Nat) : ((likeBases parts).map fun group =>
    powerWith (fuel + 1) group.1 (sumWith (fuel + 1) group.2)) = parts := by
  have pairs : parts.map baseAndExponent = parts.map fun part => (part, one) :=
    List.map_congr_left fun part member => (plain part member).base_eq
  rw [likeBases, pairs, Grouping.ofPairs_apart (by simpa [Function.comp_def] using unique)]
  simp [Function.comp_def, powerWith_unit]

theorem productWith_apart (fuel : Nat) {operands : List (Expr κ)} {coefficient : κ}
    (number : numbersIn (factorsOf operands) = [coefficient])
    (symbolic : symbolicIn (factorsOf operands) = parts)
    (nonzero : Scalar.isZero (1 * coefficient) = false) :
    productWith (fuel + 2) operands = ofFactors (1 * coefficient) parts := by
  have pieces : parts.flatMap pieces = parts := by
    rw [List.flatMap_congr fun part member => (plain part member).pieces_eq, List.flatMap_singleton']
  rw [productWith]
  simp only [number, symbolic, List.foldl_cons, List.foldl_nil, nonzero, Bool.false_eq_true,
    ↓reduceIte, powers_plain plain unique fuel, pieces, numbersIn_plain plain, symbolicIn_plain plain]

theorem productWith_plain (fuel : Nat) {operands : List (Expr κ)} {coefficient : κ}
    (leaves : factorsOf operands = num coefficient :: parts)
    (nonzero : Scalar.isZero (1 * coefficient) = false) :
    productWith (fuel + 2) operands = ofFactors (1 * coefficient) parts := by
  refine productWith_apart plain unique fuel ?_ ?_ nonzero <;> rw [leaves]
  · rw [numbersIn_num, numbersIn_plain plain]
  · rw [symbolicIn_num, symbolicIn_plain plain]

end

section

variable {expr : Expr κ} (plain : expr.Plain)

include plain

theorem Plain.product_unit {operands : List (Expr κ)}
    (number : numbersIn (factorsOf operands) = [1])
    (symbolic : symbolicIn (factorsOf operands) = [expr]) : product operands = expr := by
  have value : Exact.real (1 * 1 : κ) = 1 := by
    rw [Exact.real_mul, Exact.real_one, one_mul]
  have nonzero : Scalar.isZero (1 * 1 : κ) = false := by
    rw [← Bool.not_eq_true, isZero_iff, value]
    exact one_ne_zero
  have one : Scalar.isOne (1 * 1 : κ) = true := (isOne_iff _).mpr value
  rw [product, fuelFor, productWith_apart (by simpa using plain) (List.nodup_singleton _) _ number
    symbolic nonzero, ofFactors, nonzero, one, if_neg Bool.false_ne_true]
  rfl

theorem Plain.times_one : expr * one = expr := by
  have leaves : factorsOf [expr, one] = [expr] ++ [one] := by
    rw [factorsOf, plain.factors_eq]
    rfl
  apply plain.product_unit <;> rw [leaves]
  · rw [numbersIn, List.filterMap_append, ← numbersIn, plain.alone.1]
    rfl
  · rw [symbolicIn, List.filter_append, ← symbolicIn, plain.alone.2]
    rfl

theorem Plain.one_times : one * expr = expr := by
  apply plain.product_unit <;> rw [one, plain.factorsOf_number]
  · rw [numbersIn_num, plain.alone.1]
  · rw [symbolicIn_num, plain.alone.2]

theorem Plain.zero_times : zero * expr = zero := by
  have numbers : numbersIn (factorsOf [zero, expr]) = [(0 : κ)] := by
    rw [zero, plain.factorsOf_number, numbersIn_num, plain.alone.1]
  have nothing : Scalar.isZero (1 * 0 : κ) = true :=
    (isZero_iff _).mpr (by rw [Exact.real_mul, Exact.real_zero, mul_zero])
  change product [zero, expr] = zero
  rw [product, fuelFor, productWith]
  simp only [numbers, List.foldl_cons, List.foldl_nil, nothing, if_true]

end

theorem zero_plus_atom (symbol : Atom) : (zero + atom symbol : Expr κ) = atom symbol := by
  obtain ⟨nonzero, isOne⟩ := unit_coefficient (κ := κ)
  have none : Scalar.isZero (0 + 0 : κ) = true :=
    (isZero_iff _).mpr (by rw [Exact.real_add, Exact.real_zero, zero_add])
  change sum [zero, atom symbol] = atom symbol
  rw [sum, fuelFor]
  refine sumWith_apart _ [atom symbol] none (List.nodup_singleton _) ?_
  change [scaledTerm? _ (atom symbol, 0 + 1)] = _
  rw [scaledTerm?, nonzero, isOne, if_neg Bool.false_ne_true, if_pos rfl]
  rfl

end Expr

end Mechanism
