import Mechanism.Double
import Mechanism.Proofs.Expr.Constructed

/-!
Expressions that read no other atoms than the allowed ones. The canonical constructors and
differentiation bring in no atoms, and the derivative by an atom that is not read is zero.
-/

namespace Mechanism.Expr

variable {κ : Type} [Scalar κ] {allowed : Atom → Prop}

def ReadsOnly (allowed : Atom → Prop) (expr : Expr κ) : Prop :=
  ∀ symbol ∈ expr.occurrences, allowed symbol

theorem ReadsOnly.mono {expr : Expr κ} (reads : expr.ReadsOnly allowed) {more : Atom → Prop}
    (le : ∀ symbol, allowed symbol → more symbol) : expr.ReadsOnly more :=
  fun symbol occurs => le symbol (reads symbol occurs)

theorem ReadsOnly.child {expr child : Expr κ} (reads : expr.ReadsOnly allowed)
    (member : child ∈ expr.children) : child.ReadsOnly allowed :=
  fun symbol occurs => reads symbol (occurrences_of_child member occurs)

theorem readsOnly_of_uses_le {expr : Expr κ} (operands : List (Expr κ))
    (bound : ∀ wanted, uses wanted expr ≤ usesIn wanted operands)
    (reads : ∀ operand ∈ operands, operand.ReadsOnly allowed) : expr.ReadsOnly allowed := by
  intro symbol occurs
  obtain ⟨operand, member, inside⟩ := mem_occurrences_of_uses_le bound occurs
  exact reads operand member symbol inside

theorem readsOnly_number (value : κ) : (number value).ReadsOnly allowed := nofun

theorem readsOnly_zero : (zero : Expr κ).ReadsOnly allowed := nofun

theorem readsOnly_one : (one : Expr κ).ReadsOnly allowed := nofun

theorem readsOnly_atom {symbol : Atom} :
    (atom symbol : Expr κ).ReadsOnly allowed ↔ allowed symbol := by
  simp [ReadsOnly, occurrences]

theorem readsOnly_sum {terms : List (Expr κ)} (reads : ∀ term ∈ terms, term.ReadsOnly allowed) :
    (sum terms).ReadsOnly allowed :=
  readsOnly_of_uses_le _ (fun wanted => uses_sum_le wanted terms) reads

theorem readsOnly_product {operands : List (Expr κ)}
    (reads : ∀ operand ∈ operands, operand.ReadsOnly allowed) :
    (product operands).ReadsOnly allowed :=
  readsOnly_of_uses_le _ (fun wanted => uses_product_le wanted operands) reads

section

variable {left right expr : Expr κ} (first : left.ReadsOnly allowed)
  (second : right.ReadsOnly allowed) (reads : expr.ReadsOnly allowed)

include first second in
theorem readsOnly_power : (power left right).ReadsOnly allowed :=
  readsOnly_of_uses_le [left, right]
    (fun wanted => by simpa using uses_power_le wanted left right) (by simp [first, second])

include first second in
theorem readsOnly_plus : (left + right).ReadsOnly allowed :=
  readsOnly_sum (by simp [first, second])

include first second in
theorem readsOnly_times : (left * right).ReadsOnly allowed :=
  readsOnly_product (by simp [first, second])

include reads in
theorem readsOnly_negate : (-expr).ReadsOnly allowed :=
  readsOnly_product (by simp [reads, readsOnly_number])

include first second in
theorem readsOnly_minus : (left - right).ReadsOnly allowed :=
  readsOnly_sum (List.forall_mem_cons.mpr
    ⟨first, List.forall_mem_singleton.mpr (readsOnly_negate second)⟩)

include reads in
theorem readsOnly_reciprocal : expr.reciprocal.ReadsOnly allowed :=
  readsOnly_power reads (readsOnly_number _)

include first second in
theorem readsOnly_dividedBy : (left / right).ReadsOnly allowed :=
  readsOnly_product (by simp [first, readsOnly_reciprocal second])

include reads in
theorem readsOnly_square : expr.square.ReadsOnly allowed :=
  readsOnly_power reads (readsOnly_number _)

include reads in
theorem readsOnly_apply (function : Elementary) : (apply function expr).ReadsOnly allowed :=
  readsOnly_of_uses_le [expr]
    (fun wanted => by simpa using uses_apply_le wanted function expr) (by simp [reads])

end

theorem readsOnly_choose (relation : Relation) {left right chosen otherwise : Expr κ}
    (reads : ∀ operand ∈ [left, right, chosen, otherwise], operand.ReadsOnly allowed) :
    (choose relation left right chosen otherwise).ReadsOnly allowed :=
  readsOnly_of_uses_le _ (fun wanted => by
    simpa [Nat.add_assoc] using uses_choose_le wanted relation left right chosen otherwise) reads

theorem readsOnly_angleOf {y x : Expr κ} (ordinate : y.ReadsOnly allowed)
    (abscissa : x.ReadsOnly allowed) : (angleOf y x).ReadsOnly allowed :=
  readsOnly_of_uses_le [y, x]
    (fun wanted => by simpa using uses_angleOf_le wanted y x) (by simp [ordinate, abscissa])

theorem inherited_readsOnly : Inherited (ReadsOnly (κ := κ) allowed) where
  number := readsOnly_number
  result call reads := by
    cases call with
    | sum terms => exact readsOnly_sum reads
    | product operands => exact readsOnly_product reads
    | power base exponent =>
        obtain ⟨first, second⟩ := List.forall_mem_cons.mp reads
        exact readsOnly_power first (List.forall_mem_singleton.mp second)
    | apply function argument => exact readsOnly_apply (List.forall_mem_singleton.mp reads) function
    | angle y x =>
        obtain ⟨first, second⟩ := List.forall_mem_cons.mp reads
        exact readsOnly_angleOf first (List.forall_mem_singleton.mp second)
    | choose relation => exact readsOnly_choose relation reads
  child := ReadsOnly.child

theorem ReadsOnly.derivative {expr : Expr κ} (reads : expr.ReadsOnly allowed) (unknown : Atom) :
    (expr.derivative unknown).ReadsOnly allowed :=
  inherited_readsOnly.derivative readsOnly_one unknown reads

/-- Sums of zeros are zero. -/
class ZeroSum (κ : Type) [Scalar κ] : Prop where
  isZero_zero : Scalar.isZero (0 : κ) = true
  zero_add_zero : (0 : κ) + 0 = 0

instance [Neutral κ] : ZeroSum κ where
  isZero_zero := Neutral.isZero_zero
  zero_add_zero := Neutral.zero_add 0 (by simp [Scalar.unsigned])

instance : ZeroSum Float := ⟨by decide, by decide⟩

section Independent

variable [ZeroSum κ]

theorem zero_isZero : (zero : Expr κ).isZero = true := ZeroSum.isZero_zero

theorem foldl_add_zeros {values : List κ} (zeros : ∀ value ∈ values, value = 0) :
    values.foldl (· + ·) 0 = 0 := by
  induction values with
  | nil => rfl
  | cons head tail ih =>
      obtain ⟨rfl, later⟩ := List.forall_mem_cons.mp zeros
      rw [List.foldl_cons, ZeroSum.zero_add_zero, ih later]

theorem sum_zeros {terms : List (Expr κ)} (zeros : ∀ term ∈ terms, term = zero) :
    sum terms = zero := by
  have leaves : addendsOf terms = terms := addendsOf_eq_self fun term member => by
    rw [zeros term member]
    exact nofun
  have symbolic : symbolicIn terms = [] := List.filter_eq_nil_iff.mpr fun term member => by
    rw [zeros term member]
    exact Bool.false_ne_true
  have constant : (numbersIn terms).foldl (· + ·) 0 = 0 :=
    foldl_add_zeros fun value member => num.inj (zeros _ (mem_numbersIn.mp member))
  rw [sum, fuelFor, sumWith]
  simp only [leaves, symbolic, constant, ZeroSum.isZero_zero, if_true]
  rfl

theorem productRule_zeros (before : List (Expr κ)) {pairs : List (Expr κ × Expr κ)}
    (zeros : ∀ pair ∈ pairs, pair.2 = zero) : productRule before pairs = [] := by
  induction pairs generalizing before with
  | nil => rfl
  | cons head tail ih =>
      obtain ⟨here, later⟩ := List.forall_mem_cons.mp zeros
      rw [productRule, here, zero_isZero, if_pos rfl, ih _ later]

omit [ZeroSum κ] in
theorem choose_zeros (relation : Relation) (left right : Expr κ) :
    choose relation left right zero zero = zero := by
  unfold choose
  split
  · exact ite_self _
  · rw [beq_self_eq_true, if_pos rfl]

theorem derivative_unread {unknown : Atom} {expr : Expr κ} (unread : unknown ∉ expr.occurrences) :
    expr.derivative unknown = zero := by
  induction expr using induct with
  | step expr ih =>
      have rates : ∀ child ∈ expr.children, child.derivative unknown = zero :=
        fun child member => ih child member fun occurs => unread (occurrences_of_child member occurs)
      rw [derivative_eq]
      cases expr with
      | num => rfl
      | atom symbol =>
          have apart : symbol ≠ unknown := fun same => unread (by simp [occurrences, same])
          exact if_neg apart
      | add terms => exact sum_zeros (List.forall_mem_map.mpr rates)
      | mul operands =>
          refine sum_zeros ?_
          rw [productRule_zeros [] fun pair member => ?_]
          · exact List.forall_mem_nil _
          · obtain ⟨child, among, same⟩ := List.mem_map.mp (List.of_mem_zip member).2
            rw [← same, rates child among]
      | pow base exponent =>
          simp only [children, List.forall_mem_cons] at rates
          simp [children, rate, powerRule, rates, zero_isZero]
      | call function argument =>
          simp only [children, List.forall_mem_cons] at rates
          simp [children, rate, rates, zero_isZero]
      | angle y x =>
          simp only [children, List.forall_mem_cons] at rates
          simp [children, rate, angleRule, rates, zero_isZero]
      | cond relation left right chosen otherwise =>
          simp only [children, List.forall_mem_cons] at rates
          simp [children, rate, rates, choose_zeros]

/-- Neither differentiation nor substitution brings in an atom, the derivative by an atom that is not
read is zero, and the search for an atom finds exactly those that are read. -/
theorem rewriting_brings_no_atoms (expr : Expr κ) (unknown : Atom)
    (replacement : Atom → Option (Expr κ)) :
    (∀ symbol ∈ (expr.derivative unknown).atoms, symbol ∈ expr.atoms) ∧
    (unknown ∉ expr.atoms → expr.derivative unknown = zero) ∧
    (∀ symbol ∈ (expr.substitute replacement).atoms,
      (symbol ∈ expr.atoms ∧ replacement symbol = none) ∨
        ∃ replaced ∈ expr.atoms, ∃ value, replacement replaced = some value ∧
          symbol ∈ value.atoms) ∧
    (expr.reads unknown = true ↔ unknown ∈ expr.atoms) := by
  refine ⟨fun symbol occurs => ?_, fun unread => ?_, fun symbol occurs => ?_, reads_iff⟩
  · have reads : expr.ReadsOnly (· ∈ expr.atoms) := fun symbol inside => mem_atoms.mpr inside
    exact reads.derivative unknown symbol (mem_atoms.mp occurs)
  · exact derivative_unread fun inside => unread (mem_atoms.mpr inside)
  · obtain ⟨replaced, inside, among⟩ := mem_occurrences_substitute (mem_atoms.mp occurs)
    unfold replacementOf at among
    cases found : replacement replaced with
    | none =>
        rw [found] at among
        obtain rfl : symbol = replaced := by simpa [occurrences] using among
        exact Or.inl ⟨mem_atoms.mpr inside, found⟩
    | some value =>
        rw [found] at among
        exact Or.inr ⟨replaced, mem_atoms.mpr inside, value, found, mem_atoms.mpr among⟩

end Independent

namespace Unrelated

def x : Atom := .whole ⟨0, "x", .scalar, .real⟩

def y : Atom := .whole ⟨1, "y", .scalar, .real⟩

/-- In floating point too, a product of a number and an atom does not change with another atom. -/
theorem brings_no_atoms_product : ZeroSum Float ∧ y ∉ (mul [num 2, atom x] : Expr Float).atoms ∧
    (mul [num 2, atom x] : Expr Float).derivative y = zero := by
  have unread : y ∉ (mul [num 2, atom x] : Expr Float).atoms := by
    simp [mem_atoms, occurrences, occurrencesIn, x, y]
  exact ⟨inferInstance, unread,
    (rewriting_brings_no_atoms (mul [num 2, atom x]) y fun _ => none).2.1 unread⟩

end Unrelated

end Mechanism.Expr
