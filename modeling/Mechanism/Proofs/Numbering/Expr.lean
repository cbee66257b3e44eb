import Mechanism.Expr.Text
import Mechanism.Proofs.Expr.Uses
import Mechanism.Proofs.Numbering.Basic

/-!
Expressions and the numbers of their symbols. Fingerprints go by names, and so do the order of
operands, the canonical constructors and the texts; where expressions or atoms are compared, the
answer is the same once all numbers are moved.
-/

namespace Mechanism

namespace Expr

variable {κ : Type} [Scalar κ] (offset : Nat)

mutual
def renumber : Expr κ → Expr κ
  | num value => num value
  | atom symbol => atom (shift offset symbol)
  | add terms => add (renumberAll terms)
  | mul operands => mul (renumberAll operands)
  | pow base exponent => pow (renumber base) (renumber exponent)
  | call function argument => call function (renumber argument)
  | angle y x => angle (renumber y) (renumber x)
  | cond relation left right chosen otherwise =>
    cond relation (renumber left) (renumber right) (renumber chosen) (renumber otherwise)
def renumberAll : List (Expr κ) → List (Expr κ)
  | [] => []
  | head :: tail => renumber head :: renumberAll tail
end

instance : Numbered (Expr κ) := ⟨renumber⟩

theorem renumberAll_eq (exprs : List (Expr κ)) :
    renumberAll offset exprs = exprs.map (shift offset) := by
  induction exprs with
  | nil => rfl
  | cons head tail ih => exact congrArg (shift offset head :: ·) ih

section Nodes

@[simp] theorem shift_num (value : κ) : shift offset (num value) = num value := rfl

@[simp] theorem shift_atom (symbol : Atom) :
    shift offset (atom symbol : Expr κ) = atom (shift offset symbol) := rfl

@[simp] theorem shift_add (terms : List (Expr κ)) :
    shift offset (add terms) = add (terms.map (shift offset)) := by
  rw [← renumberAll_eq]
  rfl

@[simp] theorem shift_mul (operands : List (Expr κ)) :
    shift offset (mul operands) = mul (operands.map (shift offset)) := by
  rw [← renumberAll_eq]
  rfl

@[simp] theorem shift_pow (base exponent : Expr κ) :
    shift offset (pow base exponent) = pow (shift offset base) (shift offset exponent) := rfl

@[simp] theorem shift_call (function : Elementary) (argument : Expr κ) :
    shift offset (call function argument) = call function (shift offset argument) := rfl

@[simp] theorem shift_angle (y x : Expr κ) :
    shift offset (angle y x) = angle (shift offset y) (shift offset x) := rfl

@[simp] theorem shift_cond (relation : Relation) (left right chosen otherwise : Expr κ) :
    shift offset (cond relation left right chosen otherwise) =
      cond relation (shift offset left) (shift offset right) (shift offset chosen)
        (shift offset otherwise) := rfl

end Nodes

variable (expr : Expr κ)

@[simp] theorem children_shift :
    (shift offset expr).children = expr.children.map (shift offset) := by
  cases expr <;> simp [children]

@[simp] theorem asNumber?_shift : (shift offset expr).asNumber? = expr.asNumber? := by
  cases expr <;> simp [asNumber?]

@[simp] theorem asAtom?_shift :
    (shift offset expr).asAtom? = expr.asAtom?.map (shift offset) := by
  cases expr <;> simp [asAtom?]

@[simp] theorem isLeaf_shift : (shift offset expr).isLeaf = expr.isLeaf := by
  cases expr <;> simp [isLeaf]

@[simp] theorem isZero_shift : (shift offset expr).isZero = expr.isZero := by
  simp [isZero]

@[simp] theorem isOne_shift : (shift offset expr).isOne = expr.isOne := by
  simp [isOne]

instance : Mechanism.Faithful (Expr κ) := ⟨fun offset left => by
  induction left using induct with
  | step left ih =>
      intro right same
      have parts : left.children = right.children := by
        have mapped := congrArg children same
        rw [children_shift, children_shift] at mapped
        refine List.ext_getElem (by simpa using congrArg List.length mapped) fun place inside other => ?_
        refine ih _ (List.getElem_mem inside) ?_
        simpa [inside, other] using congrArg (·[place]?) mapped
      cases left <;> cases right <;> simp_all [children]⟩

@[simp] theorem fingerprint_shift : (shift offset expr).fingerprint = expr.fingerprint := by
  induction expr using induct with
  | step expr ih =>
      have below : ∀ exprs : List (Expr κ), (∀ part ∈ exprs, part ∈ expr.children) →
          (exprs.map (shift offset)).map fingerprint = exprs.map fingerprint := by
        intro exprs inside
        rw [List.map_map]
        exact List.map_congr_left fun part member => ih part (inside part member)
      cases expr with
      | num value => rw [shift_num]
      | atom symbol => rw [shift_atom, fingerprint_atom, Atom.fingerprint_shift, fingerprint_atom]
      | add terms => rw [shift_add, fingerprint_add, below terms (by simp [children]), fingerprint_add]
      | mul operands =>
          rw [shift_mul, fingerprint_mul, below operands (by simp [children]), fingerprint_mul]
      | pow base exponent =>
          have operands := below [base, exponent] (by simp [children])
          simp_all [fingerprint_pow]
      | call function argument =>
          have operands := below [argument] (by simp [children])
          simp_all [fingerprint_call]
      | angle y x =>
          have operands := below [y, x] (by simp [children])
          simp_all [fingerprint_angle]
      | cond relation left right chosen otherwise =>
          have operands := below [left, right, chosen, otherwise] (by simp [children])
          simp_all [fingerprint_cond]

theorem nestingOf_map_shift (operands : List (Expr κ))
    (each : ∀ operand ∈ operands, (shift offset operand).nesting = operand.nesting) :
    nestingOf (operands.map (shift offset)) = nestingOf operands := by
  rw [nestingOf, nestingOf, List.foldl_map]
  exact List.foldl_ext _ _ _ fun most operand member => by rw [each operand member]

@[simp] theorem nesting_shift : (shift offset expr).nesting = expr.nesting := by
  induction expr using induct with
  | step expr ih =>
      cases expr with
      | add terms => rw [shift_add, nesting_add, nestingOf_map_shift offset terms ih, nesting_add]
      | mul operands =>
          rw [shift_mul, nesting_mul, nestingOf_map_shift offset operands ih, nesting_mul]
      | pow base exponent =>
          rw [shift_pow, nesting_pow, ih base (by simp [children]), ih exponent (by simp [children]),
            nesting_pow]
      | _ => simp [nesting, nestingIn]

@[simp] theorem nestingOf_shift (operands : List (Expr κ)) :
    nestingOf (operands.map (shift offset)) = nestingOf operands :=
  nestingOf_map_shift offset operands fun operand _ => nesting_shift offset operand

@[simp] theorem rank_shift : (shift offset expr).rank = expr.rank := by
  cases expr <;> simp [rank]

@[simp] theorem precedes_shift (left right : Expr κ) :
    precedes (shift offset left) (shift offset right) = precedes left right := by
  simp [precedes]

@[simp] theorem arrange_shift (operands : List (Expr κ)) :
    arrange (operands.map (shift offset)) = (arrange operands).map (shift offset) :=
  sort_shift offset (precedes_shift offset) operands

@[simp] theorem shift_number (value : κ) : shift offset (number value) = number value :=
  shift_num offset _

@[simp] theorem shift_zero : shift offset (zero : Expr κ) = zero := shift_num offset _

@[simp] theorem shift_one : shift offset (one : Expr κ) = one := shift_num offset _

@[simp] theorem shift_integer (value : Int) : shift offset (integer value : Expr κ) = integer value :=
  shift_num offset _

@[simp] theorem addends_shift : addends (shift offset expr) = (addends expr).map (shift offset) := by
  induction expr using induct with
  | step expr ih =>
      cases expr with
      | add terms =>
          rw [shift_add, addends, addends, addendsOf_eq, addendsOf_eq, flatMap_shift offset terms ih]
      | _ => simp [addends]

@[simp] theorem addendsOf_shift (terms : List (Expr κ)) :
    addendsOf (terms.map (shift offset)) = (addendsOf terms).map (shift offset) := by
  rw [addendsOf_eq, addendsOf_eq, flatMap_shift offset terms fun term _ => addends_shift offset term]

@[simp] theorem factors_shift : factors (shift offset expr) = (factors expr).map (shift offset) := by
  induction expr using induct with
  | step expr ih =>
      cases expr with
      | mul operands =>
          rw [shift_mul, factors, factors, factorsOf_eq, factorsOf_eq, flatMap_shift offset operands ih]
      | _ => simp [factors]

@[simp] theorem factorsOf_shift (operands : List (Expr κ)) :
    factorsOf (operands.map (shift offset)) = (factorsOf operands).map (shift offset) := by
  rw [factorsOf_eq, factorsOf_eq,
    flatMap_shift offset operands fun operand _ => factors_shift offset operand]

@[simp] theorem numbersIn_shift (operands : List (Expr κ)) :
    numbersIn (operands.map (shift offset)) = numbersIn operands := by
  simp [numbersIn, List.filterMap_map]

@[simp] theorem symbolicIn_shift (operands : List (Expr κ)) :
    symbolicIn (operands.map (shift offset)) = (symbolicIn operands).map (shift offset) := by
  simp [symbolicIn, List.filter_map, Function.comp_def]

@[simp] theorem splitCoefficient_shift :
    (shift offset expr).splitCoefficient =
      (expr.splitCoefficient.1, shift offset expr.splitCoefficient.2) := by
  cases expr with
  | mul operands =>
      rcases operands with _ | ⟨first, _ | ⟨second, _ | ⟨third, rest⟩⟩⟩ <;>
        first
        | simp [splitCoefficient]; done
        | cases first <;> simp [splitCoefficient]
  | _ => simp [splitCoefficient]

@[simp] theorem baseAndExponent_shift :
    (shift offset expr).baseAndExponent = shift offset expr.baseAndExponent := by
  cases expr <;> simp [baseAndExponent]

@[simp] theorem likeTerms_shift (terms : List (Expr κ)) :
    likeTerms (terms.map (shift offset)) = (likeTerms terms).map (shift offset) := by
  have pairs : (terms.map (shift offset)).map
      (fun term => (term.splitCoefficient.2, term.splitCoefficient.1)) =
        (terms.map fun term => (term.splitCoefficient.2, term.splitCoefficient.1)).map
          (shift offset) := by
    simp
  simp only [likeTerms, pairs, Grouping.ofPairs_shift]
  simp

@[simp] theorem likeBases_shift (operands : List (Expr κ)) :
    likeBases (operands.map (shift offset)) = (likeBases operands).map (shift offset) := by
  rw [likeBases, likeBases, ← Grouping.ofPairs_shift]
  simp [Function.comp_def]

@[simp] theorem ofTerms_shift (terms : List (Expr κ)) :
    ofTerms (terms.map (shift offset)) = shift offset (ofTerms terms) := by
  rcases terms with _ | ⟨first, _ | ⟨second, rest⟩⟩
  · simp [ofTerms]
  · simp [ofTerms]
  · have sorted := arrange_shift offset (first :: second :: rest)
    simp_all [ofTerms]

@[simp] theorem pieces_shift : pieces (shift offset expr) = (pieces expr).map (shift offset) := by
  cases expr <;> simp [pieces]

@[simp] theorem ofFactors_shift (coefficient : κ) (operands : List (Expr κ)) :
    ofFactors coefficient (operands.map (shift offset)) =
      shift offset (ofFactors coefficient operands) := by
  unfold ofFactors
  rw [arrange_shift]
  by_cases vanishes : Scalar.isZero coefficient = true
  · simp [vanishes]
  · rcases arrange operands with _ | ⟨first, _ | ⟨second, rest⟩⟩ <;>
      cases alone : Scalar.isOne coefficient <;> simp [vanishes]

@[simp] theorem foldedPower?_shift (base exponent : Expr κ) :
    foldedPower? (shift offset base) (shift offset exponent) = foldedPower? base exponent := by
  cases base <;> cases exponent <;> simp [foldedPower?]

theorem scaledTerm?_shift {multiply multiply' : List (Expr κ) → Expr κ}
    (same : ∀ operands, multiply' (operands.map (shift offset)) = shift offset (multiply operands))
    (term : Expr κ × κ) :
    scaledTerm? multiply' (shift offset term) = (scaledTerm? multiply term).map (shift offset) := by
  have product := same [number term.2, term.1]
  unfold scaledTerm?
  by_cases vanishes : Scalar.isZero term.2 = true
  · simp [vanishes]
  · by_cases single : Scalar.isOne term.2 = true <;> simp_all

theorem constructors_shift (fuel : Nat) :
    (∀ terms : List (Expr κ),
      sumWith fuel (terms.map (shift offset)) = shift offset (sumWith fuel terms)) ∧
    (∀ operands : List (Expr κ),
      productWith fuel (operands.map (shift offset)) = shift offset (productWith fuel operands)) ∧
    ∀ base exponent : Expr κ,
      powerWith fuel (shift offset base) (shift offset exponent) =
        shift offset (powerWith fuel base exponent) := by
  induction fuel with
  | zero => exact ⟨by simp [sumWith], by simp [productWith], by simp [powerWith]⟩
  | succ fuel ih =>
      obtain ⟨sums, products, powers⟩ := ih
      refine ⟨fun terms => ?_, fun operands => ?_, fun base exponent => ?_⟩
      · have collected : ((likeTerms (symbolicIn (addendsOf terms))).map (shift offset)).filterMap
            (scaledTerm? (productWith fuel)) =
              ((likeTerms (symbolicIn (addendsOf terms))).filterMap
                (scaledTerm? (productWith fuel))).map (shift offset) := by
          rw [List.filterMap_map, List.map_filterMap]
          exact List.filterMap_congr fun term _ => scaledTerm?_shift offset products term
        simp only [sumWith, addendsOf_shift, numbersIn_shift, symbolicIn_shift, likeTerms_shift,
          collected]
        rw [← ofTerms_shift, List.map_append]
        split <;> simp
      · simp only [productWith, factorsOf_shift, numbersIn_shift, symbolicIn_shift, likeBases_shift]
        by_cases vanishes : Scalar.isZero ((numbersIn (factorsOf operands)).foldl (· * ·) 1) = true
        · simp [vanishes]
        · have parts : (((likeBases (symbolicIn (factorsOf operands))).map (shift offset)).map
              fun group => powerWith fuel group.1 (sumWith fuel group.2)) =
                ((likeBases (symbolicIn (factorsOf operands))).map
                  fun group => powerWith fuel group.1 (sumWith fuel group.2)).map (shift offset) := by
            simp [sums, powers]
          simp only [vanishes, Bool.false_eq_true, ↓reduceIte, parts]
          rw [flatMap_shift offset _ fun expr _ => pieces_shift offset expr, numbersIn_shift,
            symbolicIn_shift, ofFactors_shift]
      · simp only [powerWith, isZero_shift, isOne_shift, foldedPower?_shift, asNumber?_shift]
        split
        · simp
        split
        · rfl
        split
        · simp
        · have inner : ∀ inner innerExponent : Expr κ,
              powerWith fuel (shift offset inner)
                (productWith fuel [shift offset innerExponent, shift offset exponent]) =
                  shift offset (powerWith fuel inner (productWith fuel [innerExponent, exponent])) := by
            intro inner innerExponent
            rw [← powers, ← products, List.map_cons, List.map_cons, List.map_nil]
          have each : ∀ operands : List (Expr κ),
              productWith fuel ((operands.map (shift offset)).map fun factor =>
                powerWith fuel factor (shift offset exponent)) =
                  shift offset (productWith fuel (operands.map fun factor =>
                    powerWith fuel factor exponent)) := by
            intro operands
            rw [← products, List.map_map, List.map_map]
            exact congrArg _ (List.map_congr_left fun factor _ => powers factor exponent)
          have whole : ∀ base : Expr κ,
              (if base.isOne then one else pow (shift offset base) (shift offset exponent)) =
                shift offset (if base.isOne then one else pow base exponent) := by
            simp
          cases exponent.asNumber?.bind Scalar.wholeExponent? with
          | none => cases base <;> exact whole _
          | some power =>
              cases base with
              | pow => exact inner _ _
              | mul operands =>
                  rw [shift_mul]
                  exact each operands
              | _ => exact whole _

@[simp] theorem sum_shift (terms : List (Expr κ)) :
    sum (terms.map (shift offset)) = shift offset (sum terms) := by
  rw [sum, nestingOf_shift, (constructors_shift offset _).1, sum]

@[simp] theorem product_shift (operands : List (Expr κ)) :
    product (operands.map (shift offset)) = shift offset (product operands) := by
  rw [product, nestingOf_shift, (constructors_shift offset _).2.1, product]

@[simp] theorem power_shift (base exponent : Expr κ) :
    power (shift offset base) (shift offset exponent) = shift offset (power base exponent) := by
  rw [power, nesting_shift, nesting_shift, (constructors_shift offset _).2.2, power]

@[simp] theorem apply_shift (function : Elementary) (argument : Expr κ) :
    apply function (shift offset argument) = shift offset (apply function argument) := by
  simp only [apply, asNumber?_shift]
  split <;> simp

@[simp] theorem angleOf_shift (y x : Expr κ) :
    angleOf (shift offset y) (shift offset x) = shift offset (angleOf y x) := by
  cases y <;> cases x <;> simp [angleOf]

@[simp] theorem choose_shift (relation : Relation) (left right chosen otherwise : Expr κ) :
    choose relation (shift offset left) (shift offset right) (shift offset chosen)
        (shift offset otherwise) =
      shift offset (choose relation left right chosen otherwise) := by
  have undecided : (if shift offset chosen == shift offset otherwise then shift offset chosen
      else cond relation (shift offset left) (shift offset right) (shift offset chosen)
        (shift offset otherwise)) =
          shift offset (if chosen == otherwise then chosen
            else cond relation left right chosen otherwise) := by
    rw [shift_beq]
    split <;> simp
  cases left <;> cases right <;> simp_all [choose]

end Expr

end Mechanism
