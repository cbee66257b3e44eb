import Mechanism.Proofs.Expr.Reads
import Mechanism.Proofs.Expr.Substitution
import Mechanism.Proofs.Tensor.Matrices
import Mechanism.Simplifier

/-!
What is asked of a simplifier: that it invents no symbol and keeps the value. The basic one does, by
collection of `a * sin(x)^2 + a * cos(x)^2` into `a`. Two terms that add up stand at different places
of the sum: a term is never its own partner, for the partner has a factor `sin(x)^2` less. So each
round takes two terms out and puts one in, the loop ends, and the value is kept.
-/

namespace Mechanism.Simplifier

variable {κ : Type} [Scalar κ] {limit : Nat}

/-- A result reads only symbols that the expression reads. -/
structure Modest (simplifier : Simplifier κ) : Prop where
  reads : ∀ expr result, simplifier expr = .ok result → ∀ atom ∈ result.occurrences,
    ∃ other ∈ expr.occurrences, other.symbol = atom.symbol

/-- A modest simplifier whose results read symbols only at places of theirs, if the expressions do. -/
structure Tame (simplifier : Simplifier κ) : Prop extends Modest simplifier where
  within : ∀ expr result, simplifier expr = .ok result →
    (∀ atom ∈ expr.occurrences, atom.Within) → ∀ atom ∈ result.occurrences, atom.Within

theorem keep_tame : (keep : Simplifier κ).Tame where
  reads := by
    intro expr result same atom member
    cases same
    exact ⟨atom, member, rfl⟩
  within := by
    intro expr result same within
    cases same
    exact within

/-- A result has the value of the expression it comes from, wherever that has one. -/
def Preserves [Exact κ] (simplifier : Simplifier κ) : Prop :=
  ∀ expr result, simplifier expr = .ok result → ∀ environment : Environment,
    Expr.Keeps environment environment expr result

theorem keep_preserves [Exact κ] : (keep : Simplifier κ).Preserves := by
  intro expr result same environment value means
  cases same
  exact means

theorem mapM_eq_ok {ε α β : Type} {change : α → Except ε β} {items : List α} {results : List β}
    (mapped : items.mapM change = .ok results) :
    List.Forall₂ (fun item result => change item = .ok result) items results := by
  induction items generalizing results with
  | nil =>
      rw [List.mapM_nil] at mapped
      cases mapped
      exact List.Forall₂.nil
  | cons head tail ih =>
      rw [List.mapM_cons] at mapped
      cases first : change head with
      | error _ =>
          rw [first] at mapped
          cases mapped
      | ok result =>
          cases rest : tail.mapM change with
          | error _ =>
              rw [first, rest] at mapped
              cases mapped
          | ok others =>
              rw [first, rest] at mapped
              cases mapped
              exact List.Forall₂.cons first (ih rest)

theorem onTensor_eq_ok {simplifier : Simplifier κ} {tensor result : Tensor κ}
    (simplified : simplifier.onTensor tensor = .ok result) :
    result.shape = tensor.shape ∧
      List.Forall₂ (fun entry other => simplifier entry = .ok other) tensor.entries
        result.entries := by
  unfold onTensor Tensor.mapM? at simplified
  cases mapped : tensor.entries.mapM simplifier with
  | error _ =>
      rw [mapped] at simplified
      cases simplified
  | ok entries =>
      rw [mapped] at simplified
      cases simplified
      exact ⟨rfl, mapM_eq_ok mapped⟩

theorem exists_of_onTensor {simplifier : Simplifier κ} {tensor result : Tensor κ}
    (simplified : simplifier.onTensor tensor = .ok result) :
    ∀ other ∈ result.entries, ∃ entry ∈ tensor.entries, simplifier entry = .ok other := by
  obtain ⟨_, entries⟩ := onTensor_eq_ok simplified
  intro other member
  obtain ⟨position, bound, rfl⟩ := List.getElem_of_mem member
  have before : position < tensor.entries.length := by
    rw [entries.length_eq]
    exact bound
  exact ⟨tensor.entries[position], List.getElem_mem before, entries.get before bound⟩

theorem Modest.exists_atom {simplifier : Simplifier κ} (modest : simplifier.Modest)
    {tensor result : Tensor κ} (simplified : simplifier.onTensor tensor = .ok result) {atom : Atom}
    (member : atom ∈ result.atoms) : ∃ read ∈ tensor.atoms, read.symbol = atom.symbol := by
  obtain ⟨other, among, occurs⟩ := Tensor.mem_atoms.mp member
  obtain ⟨entry, inside, same⟩ := exists_of_onTensor simplified other among
  obtain ⟨read, reads, named⟩ := modest.reads entry other same atom occurs
  exact ⟨read, Tensor.mem_atoms.mpr ⟨entry, inside, reads⟩, named⟩

theorem Modest.symbols_onTensor {simplifier : Simplifier κ} (modest : simplifier.Modest)
    {tensor result : Tensor κ} (simplified : simplifier.onTensor tensor = .ok result) :
    ∀ read ∈ result.symbols, read ∈ tensor.symbols := by
  intro read member
  obtain ⟨atom, among, rfl⟩ := Tensor.mem_symbols.mp member
  obtain ⟨before, found, named⟩ := modest.exists_atom simplified among
  exact Tensor.mem_symbols.mpr ⟨before, found, named⟩

theorem Modest.issued_onTensor {simplifier : Simplifier κ} (modest : simplifier.Modest)
    {tensor result : Tensor κ} (issued : tensor.Issued limit)
    (simplified : simplifier.onTensor tensor = .ok result) : result.Issued limit where
  length_eq := by
    obtain ⟨shape, entries⟩ := onTensor_eq_ok simplified
    rw [← entries.length_eq, issued.length_eq, shape]
  numbers := by
    intro atom member
    obtain ⟨read, reads, named⟩ := modest.exists_atom simplified member
    exact named ▸ issued.numbers read reads

theorem Tame.placed_onTensor {simplifier : Simplifier κ} (tame : simplifier.Tame)
    {tensor result : Tensor κ} (placed : tensor.Placed)
    (simplified : simplifier.onTensor tensor = .ok result) : result.Placed := by
  intro atom member
  obtain ⟨other, among, occurs⟩ := Tensor.mem_atoms.mp member
  obtain ⟨entry, inside, same⟩ := exists_of_onTensor simplified other among
  exact tame.within entry other same
    (fun read reads => placed read (Tensor.mem_atoms.mpr ⟨entry, inside, reads⟩)) atom occurs

theorem Preserves.onTensor [Exact κ] {simplifier : Simplifier κ} (preserves : simplifier.Preserves)
    {tensor result : Tensor κ} (simplified : simplifier.onTensor tensor = .ok result)
    {environment : Environment} {index : Nat} {value : ℝ}
    (means : tensor.MeansAt environment index value) : result.MeansAt environment index value := by
  obtain ⟨shape, entries⟩ := onTensor_eq_ok simplified
  obtain ⟨entry, found, means⟩ := means
  obtain ⟨bound, at_⟩ := Tensor.entryAt_eq_ok.mp found
  obtain ⟨position, same⟩ := List.getElem?_eq_some_iff.mp at_
  have inside : index < result.entries.length := by
    rw [← entries.length_eq]
    exact position
  have step : simplifier tensor.entries[index] = .ok result.entries[index] :=
    entries.get position inside
  refine ⟨result.entries[index], Tensor.entryAt_eq_ok.mpr ⟨by rwa [shape], ?_⟩, ?_⟩
  · exact List.getElem?_eq_getElem inside
  · refine preserves _ _ step environment value ?_
    rwa [same]

open Mechanism.Expr

theorem squaredSine?_eq_some {factor argument : Expr κ} :
    squaredSine? factor = some argument ↔
      ∃ exponent, isTwo exponent = true ∧ factor = pow (call .sin argument) exponent := by
  unfold squaredSine?
  split
  · rename_i inner exponent
    split
    · rename_i two
      simp only [Option.some.injEq, pow.injEq, call.injEq, true_and]
      constructor
      · rintro rfl
        exact ⟨exponent, two, rfl, rfl⟩
      · rintro ⟨_, _, rfl, _⟩
        rfl
    · rename_i other
      simp only [reduceCtorEq, false_iff]
      rintro ⟨_, two, same⟩
      cases same
      exact other two
  · rename_i unlike
    simp only [reduceCtorEq, false_iff]
    rintro ⟨exponent, _, rfl⟩
    exact unlike argument exponent rfl

def Splits (term argument : Expr κ) (rest : List (Expr κ)) : Prop :=
  ∃ exponent, isTwo exponent = true ∧
    (pow (call .sin argument) exponent :: rest).Perm (factorsOf term)

def partnerOf (argument : Expr κ) (rest : List (Expr κ)) : Expr κ :=
  product (rest ++ [argument.cos.square])

theorem mem_partners_iff {term partner : Expr κ} {rest : List (Expr κ)} :
    (rest, partner) ∈ partners term ↔ ∃ before argument exponent after, isTwo exponent = true ∧
      factorsOf term = before ++ pow (call .sin argument) exponent :: after ∧
        rest = before ++ after ∧ partner = partnerOf argument rest := by
  constructor
  · intro member
    obtain ⟨⟨factor, index⟩, among, found⟩ := List.mem_filterMap.mp member
    obtain ⟨argument, squared, same⟩ := Option.map_eq_some_iff.mp found
    cases same
    obtain ⟨exponent, two, rfl⟩ := squaredSine?_eq_some.mp squared
    have place : (factorsOf term)[index]? = some (pow (call .sin argument) exponent) :=
      List.mem_zipIdx_iff_getElem?.mp among
    obtain ⟨bound, here⟩ := List.getElem?_eq_some_iff.mp place
    refine ⟨(factorsOf term).take index, argument, exponent, (factorsOf term).drop (index + 1), two,
      ?_, List.eraseIdx_eq_take_drop_succ .., rfl⟩
    rw [← here, ← List.drop_eq_getElem_cons bound, List.take_append_drop]
  · rintro ⟨before, argument, exponent, after, two, split, rfl, rfl⟩
    refine List.mem_filterMap.mpr ⟨(pow (call .sin argument) exponent, before.length), ?_, ?_⟩
    · exact List.mem_zipIdx_iff_getElem?.mpr (by simp [split])
    · have squared : squaredSine? (pow (call .sin argument) exponent) = some argument :=
        squaredSine?_eq_some.mpr ⟨exponent, two, rfl⟩
      have erased : (factorsOf term).eraseIdx before.length = before ++ after := by
        rw [split, List.eraseIdx_append_of_length_le le_rfl, Nat.sub_self]
        rfl
      simp only [squared, erased, Option.map_some, partnerOf]

theorem splits_of_mem_partners {term partner : Expr κ} {rest : List (Expr κ)}
    (member : (rest, partner) ∈ partners term) :
    ∃ argument, Splits term argument rest ∧ partner = partnerOf argument rest := by
  obtain ⟨before, argument, exponent, after, two, split, rfl, same⟩ := mem_partners_iff.mp member
  exact ⟨argument, ⟨exponent, two, split ▸ List.perm_middle.symm⟩, same⟩

section

variable {weight : Expr κ → Nat} (laws : Weight weight)

include laws

theorem weightIn_factorsOf (term : Expr κ) : weightIn weight (factorsOf term) = weight term := by
  unfold factorsOf
  split
  · exact (laws.product_eq _).symm
  · simp

theorem Splits.weight_eq {term argument : Expr κ} {rest : List (Expr κ)}
    (splits : Splits term argument rest) :
    weight term = weight (call .sin argument) + weightIn weight rest := by
  obtain ⟨exponent, two, perm⟩ := splits
  obtain ⟨value, numeric, _⟩ := (Option.any_eq_true _ _).mp two
  rw [← weightIn_factorsOf laws term, ← weightIn_perm weight perm, weightIn_cons, laws.pow,
    laws.of_asNumber? numeric, Nat.add_zero]

end

def sinesOf (argument : Expr κ) : Expr κ → Nat :=
  recurse fun node counts =>
    match node with
    | add _ | mul _ | pow .. => counts.sum
    | call .sin other => if other = argument then 1 else 0
    | _ => 0

theorem sinesOf_weight (argument : Expr κ) : Weight (sinesOf argument) where
  num _ := recurse_eq ..
  add _ := recurse_eq ..
  mul _ := recurse_eq ..
  pow base exponent := by
    rw [sinesOf, recurse_eq]
    simp [children]

theorem sinesOf_sin (argument : Expr κ) : sinesOf argument (call .sin argument) = 1 := by
  rw [sinesOf, recurse_eq]
  exact if_pos rfl

theorem sinesOf_square_cos (argument : Expr κ) : sinesOf argument argument.cos.square = 0 := by
  have laws := sinesOf_weight argument
  have cosine : sinesOf argument argument.cos = 0 := by
    unfold Expr.cos Expr.apply
    simp only
    split
    · exact laws.number _
    · exact recurse_eq ..
  have square := laws.power_le argument.cos (integer 2)
  rw [cosine, show sinesOf argument (integer 2) = 0 from laws.number _] at square
  exact Nat.le_zero.mp square

theorem Splits.partnerOf_ne {term argument : Expr κ} {rest : List (Expr κ)}
    (splits : Splits term argument rest) : partnerOf argument rest ≠ term := by
  intro same
  have laws := sinesOf_weight argument
  have whole := splits.weight_eq laws
  have partner := laws.product_le (rest ++ [argument.cos.square])
  rw [weightIn_append, weightIn_cons, weightIn_nil, sinesOf_square_cos] at partner
  rw [sinesOf_sin, ← same, partnerOf] at whole
  omega

theorem perm_cons_cons_eraseIdx {α : Type} {items : List α} {first second : Nat}
    (before : first < second) (bound : second < items.length) :
    items.Perm (items[first] :: items[second] ::
      (items.eraseIdx second).eraseIdx first) := by
  have shorter : first < (items.eraseIdx second).length := by
    rw [List.length_eraseIdx_of_lt bound]
    omega
  have inner := List.getElem_cons_eraseIdx_perm shorter
  rw [List.getElem_eraseIdx_of_lt shorter before] at inner
  exact (List.getElem_cons_eraseIdx_perm bound).symm.trans
    ((inner.symm.cons _).trans (List.Perm.swap ..))

def AddUp (terms : List (Expr κ)) (argument : Expr κ) (rest others : List (Expr κ)) : Prop :=
  ∃ term, Splits term argument rest ∧
    terms.Perm (term :: partnerOf argument rest :: others)

theorem collectOnce?_eq_some {terms fewer : List (Expr κ)}
    (collected : collectOnce? terms = some fewer) :
    ∃ argument rest others, AddUp terms argument rest others ∧
      fewer = others ++ [product rest] := by
  obtain ⟨⟨term, index⟩, among, found⟩ := List.exists_of_findSome?_eq_some collected
  obtain ⟨⟨rest, partner⟩, member, found⟩ := List.exists_of_findSome?_eq_some found
  obtain ⟨argument, splits, rfl⟩ := splits_of_mem_partners member
  simp only at found
  cases place : terms.findIdx? (· == partnerOf argument rest) with
  | none =>
      rw [place] at found
      cases found
  | some other =>
      rw [place] at found
      cases found
      obtain ⟨bound, here⟩ := List.getElem?_eq_some_iff.mp (List.mem_zipIdx_iff_getElem?.mp among)
      obtain ⟨within, equal, _⟩ := List.findIdx?_eq_some_iff_getElem.mp place
      have there := eq_of_beq equal
      refine ⟨argument, rest, _, ⟨term, splits, ?_⟩, rfl⟩
      rcases Nat.lt_trichotomy index other with before | same | after
      · have perm := perm_cons_cons_eraseIdx before within
        rw [here, there] at perm
        rwa [Nat.max_eq_right before.le, Nat.min_eq_left before.le]
      · subst same
        exact absurd (there.symm.trans here) splits.partnerOf_ne
      · have perm := perm_cons_cons_eraseIdx after bound
        rw [here, there] at perm
        rw [Nat.max_eq_left after.le, Nat.min_eq_right after.le]
        exact perm.trans (List.Perm.swap ..)

theorem collectOnce?_eq_none {terms : List (Expr κ)} :
    collectOnce? terms = none ↔
      ∀ term ∈ terms, ∀ pair ∈ partners term, pair.2 ∉ terms := by
  have none_iff : ∀ pair : List (Expr κ) × Expr κ,
      terms.findIdx? (· == pair.2) = none ↔ pair.2 ∉ terms := by
    intro pair
    simp only [List.findIdx?_eq_none_iff, beq_eq_false_iff_ne]
    exact ⟨fun apart member => apart _ member rfl, fun absent _ member same =>
      absent (same ▸ member)⟩
  simp only [collectOnce?, List.findSome?_eq_none_iff]
  constructor
  · intro nothing term member pair among
    obtain ⟨index, bound, rfl⟩ := List.getElem_of_mem member
    have missing := nothing (terms[index], index)
      (List.mem_zipIdx_iff_getElem?.mpr (List.getElem?_eq_getElem bound)) pair among
    rw [← none_iff]
    cases found : terms.findIdx? (· == pair.2) with
    | none => rfl
    | some other =>
        rw [found] at missing
        cases missing
  · intro apart entry among pair member
    have inside := List.mem_of_getElem? (List.mem_zipIdx_iff_getElem?.mp among)
    rw [(none_iff pair).mpr (apart entry.1 inside pair member)]

theorem AddUp.length_eq {terms rest others : List (Expr κ)} {argument : Expr κ}
    (pair : AddUp terms argument rest others) :
    (others ++ [product rest]).length + 1 = terms.length := by
  obtain ⟨term, _, perm⟩ := pair
  rw [perm.length_eq]
  simp

theorem AddUp.weight_le {weight : Expr κ → Nat} (laws : Weight weight)
    {terms rest others : List (Expr κ)} {argument : Expr κ}
    (pair : AddUp terms argument rest others) :
    weightIn weight (others ++ [product rest]) + weight (call .sin argument) ≤
      weightIn weight terms := by
  obtain ⟨term, splits, perm⟩ := pair
  have whole := splits.weight_eq laws
  have left := laws.product_le rest
  rw [weightIn_perm weight perm]
  simp only [weightIn_append, weightIn_cons, weightIn_nil]
  omega

/-- A run of the loop: rounds for as long as there is a pair. -/
inductive Collects : List (Expr κ) → List (Expr κ) → Prop
  | done {terms : List (Expr κ)} (nothing : collectOnce? terms = none) : Collects terms terms
  | round {terms fewer left : List (Expr κ)} (collected : collectOnce? terms = some fewer)
      (later : Collects fewer left) : Collects terms left

theorem collects_collectWith (fuel : Nat) (terms : List (Expr κ)) (enough : terms.length ≤ fuel) :
    Collects terms (collectWith fuel terms) := by
  induction fuel generalizing terms with
  | zero =>
      rw [List.eq_nil_of_length_eq_zero (Nat.le_zero.mp enough)]
      exact .done rfl
  | succ fuel ih =>
      rw [collectWith]
      split
      · rename_i fewer collected
        obtain ⟨_, _, _, pair, rfl⟩ := collectOnce?_eq_some collected
        have shorter := pair.length_eq
        exact .round collected (ih _ (by omega))
      · rename_i nothing
        exact .done nothing

theorem Collects.unique {terms left other : List (Expr κ)} (first : Collects terms left)
    (second : Collects terms other) : left = other := by
  induction first with
  | done nothing =>
      cases second with
      | done => rfl
      | round collected =>
          rw [nothing] at collected
          cases collected
  | round collected _ ih =>
      cases second with
      | done nothing =>
          rw [nothing] at collected
          cases collected
      | round again later =>
          rw [collected] at again
          cases again
          exact ih later

theorem Collects.weight_le {weight : Expr κ → Nat} (laws : Weight weight)
    {terms left : List (Expr κ)} (run : Collects terms left) :
    weightIn weight left ≤ weightIn weight terms := by
  induction run with
  | done => exact le_rfl
  | round collected _ ih =>
      obtain ⟨_, _, _, pair, rfl⟩ := collectOnce?_eq_some collected
      have lighter := pair.weight_le laws
      omega

theorem collect_le {weight : Expr κ → Nat} (laws : Weight weight) (expr : Expr κ) :
    weight (collect expr) ≤ weight expr := by
  unfold collect
  split
  · rename_i terms
    have run := collects_collectWith terms.length terms le_rfl
    rw [laws.sum_eq]
    exact (laws.sum_le _).trans (run.weight_le laws)
  · exact le_rfl

theorem collectIn_le {weight : Expr κ → Nat} (laws : SteadyWeight weight) (expr : Expr κ) :
    weight (collectIn expr) ≤ weight expr := by
  induction expr using induct with
  | step expr ih =>
      rw [collectIn_eq]
      refine (collect_le laws.toWeight _).trans (laws.rebuild_le ?_)
      rw [List.forall₂_map_left_iff]
      exact List.forall₂_same.mpr ih

/-- What the rewriting comes to, from the leaves up: a node is built again from its rewritten
operands, and if that makes it a sum, the terms that the loop leaves are added up. -/
inductive Rewrites : Expr κ → Expr κ → Prop
  | sum {expr : Expr κ} {operands terms left : List (Expr κ)}
      (below : List.Forall₂ Rewrites expr.children operands)
      (rebuilt : expr.rebuild operands = add terms) (run : Collects terms left) :
      Rewrites expr (Expr.sum left)
  | other {expr : Expr κ} {operands : List (Expr κ)}
      (below : List.Forall₂ Rewrites expr.children operands)
      (rebuilt : ∀ terms, expr.rebuild operands ≠ add terms) :
      Rewrites expr (expr.rebuild operands)

theorem rewrites_collectIn (expr : Expr κ) : Rewrites expr (collectIn expr) := by
  induction expr using induct with
  | step expr ih =>
      have below : List.Forall₂ Rewrites expr.children (expr.children.map collectIn) := by
        rw [List.forall₂_map_right_iff]
        exact List.forall₂_same.mpr ih
      rw [collectIn_eq]
      unfold collect
      split
      · rename_i terms rebuilt
        exact .sum below rebuilt (collects_collectWith _ terms le_rfl)
      · rename_i rebuilt
        exact .other below rebuilt

section

variable [Exact κ] {assignment : Assignment}

theorem Splits.multiplies {term argument : Expr κ} {rest : List (Expr κ)}
    (splits : Splits term argument rest) {value : ℝ} (takes : term.Takes assignment value) :
    ∃ angle r, argument.Takes assignment angle ∧ MultipliesTo assignment rest r ∧
      Real.sin angle ^ 2 * r = value := by
  obtain ⟨exponent, two, perm⟩ := splits
  have factors : MultipliesTo assignment (factorsOf term) value := by
    unfold factorsOf
    split
    · exact takes_mul.mp takes
    · exact multipliesTo_singleton.mpr takes
  obtain ⟨square, r, power, others, rfl⟩ := multipliesTo_cons.mp (factors.perm perm)
  obtain ⟨sine, e, call, raised, same⟩ := takes_pow.mp power
  obtain ⟨angle, inner, applied⟩ := takes_call.mp call
  refine ⟨angle, r, inner, others, ?_⟩
  obtain ⟨number, numeric, isTwo⟩ := (Option.any_eq_true _ _).mp two
  have exponentTwo : e = (2 : ℤ) := by
    rw [asNumber?_eq_some.mp numeric, takes_num] at raised
    rw [← raised, (Exact.isEqual_iff _ _).mp isTwo, Exact.real_ofInt]
  have sineOf : Real.sin angle = sine := by
    simpa [Elementary.realApply, Elementary.DefinedAt, Elementary.real] using applied
  rw [exponentTwo, realPower_whole] at same
  rw [sineOf, ← same.2, zpow_ofNat]

theorem takes_partnerOf {argument : Expr κ} {rest : List (Expr κ)} {angle r : ℝ}
    (inner : argument.Takes assignment angle) (others : MultipliesTo assignment rest r) :
    (partnerOf argument rest).Takes assignment (r * Real.cos angle ^ 2) := by
  have cosine : argument.cos.Takes assignment (Real.cos angle) :=
    takes_apply inner (by simp [Elementary.realApply, Elementary.DefinedAt, Elementary.real])
  exact takes_product (others.append (multipliesTo_singleton.mpr (takes_square cosine)))

theorem AddUp.sums {terms rest others : List (Expr κ)} {argument : Expr κ}
    (pair : AddUp terms argument rest others) {value : ℝ} (sums : SumsTo assignment terms value) :
    SumsTo assignment (others ++ [product rest]) value := by
  obtain ⟨term, splits, perm⟩ := pair
  obtain ⟨x, _, first, later, rfl⟩ := sumsTo_cons.mp (sums.perm perm.symm)
  obtain ⟨y, z, second, remaining, rfl⟩ := sumsTo_cons.mp later
  obtain ⟨angle, r, inner, factors, rfl⟩ := splits.multiplies first
  have partner : y = r * Real.cos angle ^ 2 := second.unique (takes_partnerOf inner factors)
  have whole : Real.sin angle ^ 2 * r + (y + z) = z + r := by
    rw [partner]
    linear_combination r * Real.sin_sq_add_cos_sq angle
  rw [whole]
  exact remaining.append (sumsTo_singleton.mpr (takes_product factors))

theorem Collects.sums {terms left : List (Expr κ)} (run : Collects terms left) {value : ℝ}
    (sums : SumsTo assignment terms value) : SumsTo assignment left value := by
  induction run with
  | done => exact sums
  | round collected _ ih =>
      obtain ⟨_, _, _, pair, rfl⟩ := collectOnce?_eq_some collected
      exact ih (pair.sums sums)

theorem takes_collect {expr : Expr κ} {value : ℝ} (takes : expr.Takes assignment value) :
    (collect expr).Takes assignment value := by
  unfold collect
  split
  · rename_i terms
    have run := collects_collectWith terms.length terms le_rfl
    exact takes_sum (run.sums (takes_add.mp takes))
  · exact takes

theorem takes_collectIn {expr : Expr κ} {value : ℝ} (takes : expr.Takes assignment value) :
    (collectIn expr).Takes assignment value := by
  induction expr using induct generalizing value with
  | step expr ih =>
      rw [collectIn_eq]
      apply takes_collect
      by_cases leaf : expr.isLeaf = true
      · rwa [rebuild_leaf leaf]
      · refine carries_rebuild (by simpa using leaf) ?_ value takes
        rw [List.forall₂_map_right_iff]
        exact List.forall₂_same.mpr fun child member value takes => ih child member takes

end

theorem uses_steady (wanted : Atom → Bool) : SteadyWeight (uses (κ := κ) wanted) where
  toWeight := uses_weight wanted
  call_mono lighter := by
    rw [uses_compound _ _ rfl, uses_compound _ _ rfl]
    simpa [children] using lighter
  angle_mono first second := by
    rw [uses_compound _ _ rfl, uses_compound _ _ rfl]
    simpa [children] using Nat.add_le_add first second
  cond_mono first second third fourth := by
    rw [uses_compound _ _ rfl, uses_compound _ _ rfl]
    simp only [children, usesIn_cons, usesIn_nil]
    omega
  branches_le relation left right chosen otherwise := by
    rw [uses_compound wanted (cond relation left right chosen otherwise) rfl]
    simp only [children, usesIn_cons, usesIn_nil]
    omega

theorem collectIn_reads {expr : Expr κ} {symbol : Atom}
    (occurs : symbol ∈ (collectIn expr).occurrences) : symbol ∈ expr.occurrences := by
  have bound (wanted : Atom → Bool) : uses wanted (collectIn expr) ≤ usesIn wanted [expr] := by
    simpa using collectIn_le (uses_steady wanted) expr
  obtain ⟨operand, member, reads⟩ := mem_occurrences_of_uses_le bound occurs
  rwa [List.mem_singleton.mp member] at reads

theorem basic_eq_ok {limit : Nat} {expr result : Expr κ} :
    basic limit expr = .ok result ↔ expr.operations ≤ limit ∧ collectIn expr = result := by
  unfold basic
  simp only
  split <;> rename_i above
  · simp [above]
  · simp [Nat.not_lt.mp above]

theorem basic_tame (limit : Nat) : (basic limit : Simplifier κ).Tame where
  reads expr result simplified atom member := by
    obtain ⟨_, rfl⟩ := basic_eq_ok.mp simplified
    exact ⟨atom, collectIn_reads member, rfl⟩
  within expr result simplified within atom member := by
    obtain ⟨_, rfl⟩ := basic_eq_ok.mp simplified
    exact within atom (collectIn_reads member)

/-- An expression is refused if it has more operations than the limit. Any other one is rewritten
by a loop that ends on every sum; over exact numbers the result has the value of the expression
wherever that has one, and it reads nothing else. -/
theorem basic_sound (limit : Nat) (expr : Expr κ) :
    ((∃ error, basic limit expr = .error error) ↔ limit < expr.operations) ∧
      (expr.operations ≤ limit → ∃ result, basic limit expr = .ok result ∧
        Rewrites expr result ∧
        (∀ symbol ∈ result.occurrences, symbol ∈ expr.occurrences) ∧
        ∀ [Exact κ] (assignment : Assignment) (value : ℝ),
          expr.Takes assignment value → result.Takes assignment value) := by
  constructor
  · unfold basic
    simp only
    split <;> rename_i above
    · simp [above]
    · simp [above]
  · intro within
    refine ⟨collectIn expr, basic_eq_ok.mpr ⟨within, rfl⟩, rewrites_collectIn expr, ?_, ?_⟩
    · intro symbol occurs
      exact collectIn_reads occurs
    · intro _ assignment value takes
      exact takes_collectIn takes

namespace Turned

noncomputable section

def phi : Expr RealNumber := atom (.whole ⟨0, "phi", .scalar, .real⟩)

def tripled (function : Elementary) : Expr RealNumber :=
  mul [integer 3, pow (call function phi) (integer 2)]

/-- `3 * sin(phi)^2 + phi + 3 * cos(phi)^2`. -/
def expr : Expr RealNumber := add [tripled .sin, phi, tripled .cos]

def one : Assignment := fun _ => some 1

end

theorem takes_tripled {function : Elementary} {value : ℝ} (applied : function.realApply 1 = some value) :
    (tripled function).Takes one (3 * value ^ 2) := by
  have called : (call function phi).Takes one value :=
    takes_call.mpr ⟨1, (takes_atom _ _).mpr rfl, applied⟩
  have squared : (pow (call function phi) (integer 2)).Takes one (value ^ 2) :=
    takes_pow.mpr ⟨value, _, called, takes_integer 2,
      realPower_whole.mpr ⟨fun _ => by decide, zpow_ofNat value 2⟩⟩
  have three : (integer 3 : Expr RealNumber).Takes one 3 := takes_integer 3
  exact takes_mul.mpr (multipliesTo_cons.mpr
    ⟨_, _, three, multipliesTo_singleton.mpr squared, rfl⟩)

theorem takes_expr : expr.Takes one 4 := by
  have sine : (tripled .sin).Takes one (3 * Real.sin 1 ^ 2) :=
    takes_tripled (by simp [Elementary.realApply, Elementary.DefinedAt, Elementary.real])
  have cosine : (tripled .cos).Takes one (3 * Real.cos 1 ^ 2) :=
    takes_tripled (by simp [Elementary.realApply, Elementary.DefinedAt, Elementary.real])
  have angle : phi.Takes one 1 := (takes_atom _ _).mpr rfl
  refine takes_add.mpr (sumsTo_cons.mpr ⟨_, _, sine, sumsTo_cons.mpr
    ⟨_, _, angle, sumsTo_singleton.mpr cosine, rfl⟩, ?_⟩)
  linear_combination 3 * Real.sin_sq_add_cos_sq 1

/-- The squares are collected, and the value stays four. -/
theorem basic_sound_turned : expr.operations ≤ defaultLimit ∧
    ∃ result, basic defaultLimit expr = .ok result ∧ result.Takes one 4 := by
  have few : expr.operations ≤ defaultLimit := by
    simp [expr, tripled, phi, operations_eq, operationsAt, children, integer, number, total,
      defaultLimit]
  obtain ⟨result, simplified, _, _, keeps⟩ := (basic_sound defaultLimit expr).2 few
  exact ⟨few, result, simplified, keeps one 4 takes_expr⟩

end Turned

end Mechanism.Simplifier
