import Mechanism.Proofs.Expr.Canonical

/-!
The rounds that the constructors take. They are counted down from a number that the nesting of the
operands gives, and none of them is ever the last one: every sum that is made has several terms, and
every product several factors of which at most one is a number.
-/

namespace Mechanism.Expr

variable {κ : Type} [Scalar κ]

/-- A sum or a product of several operands, with at most one number in a product. -/
def Several : Expr κ → Prop
  | add terms => 2 ≤ terms.length
  | mul operands => 2 ≤ operands.length ∧ (numbersIn operands).length ≤ 1
  | _ => True

inductive WellFormed : Expr κ → Prop where
  | node {expr : Expr κ} (several : expr.Several)
      (children : ∀ child ∈ expr.children, WellFormed child) : WellFormed expr

namespace WellFormed

theorem several {expr : Expr κ} (formed : expr.WellFormed) : expr.Several := by
  cases formed with
  | node several _ => exact several

theorem child {expr operand : Expr κ} (formed : expr.WellFormed) (member : operand ∈ expr.children) :
    operand.WellFormed := by
  cases formed with
  | node _ children => exact children operand member

theorem num (value : κ) : (num value).WellFormed := .node trivial nofun

theorem atom (symbol : Atom) : (atom symbol : Expr κ).WellFormed := .node trivial nofun

theorem pow {base exponent : Expr κ} (first : base.WellFormed) (second : exponent.WellFormed) :
    (pow base exponent).WellFormed :=
  .node trivial (List.forall_mem_cons.mpr ⟨first, List.forall_mem_singleton.mpr second⟩)

end WellFormed

/-- The rounds that a base can ask for: two for each level of a power or a product. -/
def toll (base : Expr κ) (below : Nat) : Nat :=
  match base with
  | mul _ => 2 * base.nesting
  | pow .. => 2 * base.nesting
  | _ => below

/-- The rounds that an exponent can ask for: two more than it asks for itself, if it is no number. -/
def climb (exponent : Expr κ) (below : Nat) : Nat :=
  match exponent with
  | num _ => 0
  | _ => 2 + below

def roundsAt (expr : Expr κ) (below : List Nat) : Nat :=
  match expr, below with
  | add _, _ => below.foldr max 0
  | mul _, _ => below.foldr max 0
  | pow base exponent, [first, second] => max (toll base first) (climb exponent second)
  | _, _ => 0

def rounds (expr : Expr κ) : Nat := recurse roundsAt expr

theorem rounds_eq (expr : Expr κ) : expr.rounds = roundsAt expr (expr.children.map rounds) :=
  recurse_eq roundsAt expr

theorem rounds_add_le {terms : List (Expr κ)} {most : Nat} :
    (add terms).rounds ≤ most ↔ ∀ term ∈ terms, term.rounds ≤ most := by
  rw [rounds_eq, roundsAt, foldr_max_le, List.forall_mem_map]
  rfl

theorem rounds_mul_le {operands : List (Expr κ)} {most : Nat} :
    (mul operands).rounds ≤ most ↔ ∀ operand ∈ operands, operand.rounds ≤ most := by
  rw [rounds_eq, roundsAt, foldr_max_le, List.forall_mem_map]
  rfl

theorem rounds_pow_le {base exponent : Expr κ} {most : Nat} :
    (pow base exponent).rounds ≤ most ↔
      toll base base.rounds ≤ most ∧ climb exponent exponent.rounds ≤ most := by
  rw [rounds_eq]
  exact max_le_iff

@[simp] theorem rounds_num (value : κ) : (num value).rounds = 0 := rounds_eq _

theorem rounds_le_nesting (expr : Expr κ) : expr.rounds ≤ 2 * expr.nesting := by
  induction expr using induct with
  | step expr ih =>
      cases expr with
      | add terms =>
          refine rounds_add_le.mpr fun term member => (ih term member).trans ?_
          have below := nesting_lt_add member
          omega
      | mul operands =>
          refine rounds_mul_le.mpr fun operand member => (ih operand member).trans ?_
          have below := nesting_lt_mul member
          omega
      | pow base exponent =>
          have first := ih base List.mem_cons_self
          have second := ih exponent (List.mem_cons_of_mem _ List.mem_cons_self)
          rw [nesting_pow]
          refine rounds_pow_le.mpr ⟨?_, ?_⟩
          · unfold toll
            split <;> omega
          · unfold climb
            split <;> omega
      | _ => exact Nat.zero_le _

theorem rounds_le_toll (base : Expr κ) : base.rounds ≤ toll base base.rounds := by
  have below := base.rounds_le_nesting
  unfold toll
  split
  · exact below
  · exact below
  · exact le_rfl

theorem toll_le_nesting (base : Expr κ) : toll base base.rounds ≤ 2 * base.nesting := by
  have below := base.rounds_le_nesting
  unfold toll
  split <;> omega

theorem toll_of_passes {base : Expr κ} (passes : base.Passes) (below : Nat) :
    toll base below = 2 * base.nesting := by
  cases base with
  | mul | pow => rfl
  | _ => rcases passes with passes | passes <;> cases passes

theorem climb_of_symbolic {exponent : Expr κ} (symbolic : exponent.asNumber? = none) (below : Nat) :
    climb exponent below = 2 + below := by
  cases exponent with
  | num => cases symbolic
  | _ => rfl

theorem climb_le_add (exponent : Expr κ) (below : Nat) : climb exponent below ≤ 2 + below := by
  unfold climb
  split <;> omega

/-- A well-formed operand that asks for no more rounds than there are. -/
structure Fits (most : Nat) (expr : Expr κ) : Prop where
  formed : expr.WellFormed
  rounds_le : expr.rounds ≤ most

namespace Fits

variable {most : Nat} {expr : Expr κ}

theorem num (value : κ) : Fits most (num value) := ⟨.num value, Nat.zero_le _⟩

theorem number (value : κ) : Fits most (number value) := num _

theorem mono {more : Nat} (fits : Fits most expr) (le : most ≤ more) : Fits more expr :=
  ⟨fits.formed, fits.rounds_le.trans le⟩

theorem of_nesting (formed : expr.WellFormed) (le : 2 * expr.nesting ≤ most) : Fits most expr :=
  ⟨formed, expr.rounds_le_nesting.trans le⟩

theorem term {terms : List (Expr κ)} (fits : Fits most (.add terms)) :
    ∀ term ∈ terms, Fits most term :=
  fun term member => ⟨fits.formed.child member, rounds_add_le.mp fits.rounds_le term member⟩

theorem factor {operands : List (Expr κ)} (fits : Fits most (.mul operands)) :
    ∀ operand ∈ operands, Fits most operand :=
  fun operand member =>
    ⟨fits.formed.child member, rounds_mul_le.mp fits.rounds_le operand member⟩

theorem addends (fits : Fits most expr) : ∀ leaf ∈ expr.addends, Fits most leaf := by
  induction expr using induct with
  | step expr ih =>
      cases expr with
      | add terms =>
          rw [Expr.addends, addendsOf_eq]
          intro leaf member
          obtain ⟨term, among, inside⟩ := List.mem_flatMap.mp member
          exact ih term among (fits.term term among) leaf inside
      | _ => exact List.forall_mem_singleton.mpr fits

theorem factors (fits : Fits most expr) : ∀ leaf ∈ expr.factors, Fits most leaf := by
  induction expr using induct with
  | step expr ih =>
      cases expr with
      | mul operands =>
          rw [Expr.factors, factorsOf_eq]
          intro leaf member
          obtain ⟨operand, among, inside⟩ := List.mem_flatMap.mp member
          exact ih operand among (fits.factor operand among) leaf inside
      | _ => exact List.forall_mem_singleton.mpr fits

theorem addendsOf {terms : List (Expr κ)} (fits : ∀ term ∈ terms, Fits most term) :
    ∀ leaf ∈ Expr.addendsOf terms, Fits most leaf := by
  rw [addendsOf_eq]
  intro leaf member
  obtain ⟨term, among, inside⟩ := List.mem_flatMap.mp member
  exact (fits term among).addends leaf inside

theorem factorsOf {operands : List (Expr κ)} (fits : ∀ operand ∈ operands, Fits most operand) :
    ∀ leaf ∈ Expr.factorsOf operands, Fits most leaf := by
  rw [factorsOf_eq]
  intro leaf member
  obtain ⟨operand, among, inside⟩ := List.mem_flatMap.mp member
  exact (fits operand among).factors leaf inside

theorem sum {terms : List (Expr κ)} (several : 2 ≤ terms.length)
    (fits : ∀ term ∈ terms, Fits most term) : Fits most (.add terms) :=
  ⟨.node several fun term member => (fits term member).formed,
    rounds_add_le.mpr fun term member => (fits term member).rounds_le⟩

theorem product {operands : List (Expr κ)} (several : 2 ≤ operands.length)
    (numbers : (numbersIn operands).length ≤ 1) (fits : ∀ operand ∈ operands, Fits most operand) :
    Fits most (.mul operands) :=
  ⟨.node ⟨several, numbers⟩ fun operand member => (fits operand member).formed,
    rounds_mul_le.mpr fun operand member => (fits operand member).rounds_le⟩

theorem pieces (fits : Fits most expr) : ∀ part ∈ pieces expr, Fits most part := by
  cases expr with
  | mul operands => exact fits.factor
  | _ => exact List.forall_mem_singleton.mpr fits

theorem splitCoefficient (fits : Fits most expr) : Fits most expr.splitCoefficient.2 := by
  unfold Expr.splitCoefficient
  split
  · exact num 1
  · exact fits.factor _ (by simp)
  · rename_i value rest single
    obtain ⟨several, numbers⟩ := fits.formed.several
    have inside : ∀ operand ∈ rest, Fits most operand :=
      fun operand member => fits.factor operand (List.mem_cons_of_mem (Expr.num value) member)
    refine product ?_ ?_ inside
    · rcases rest with _ | ⟨first, _ | ⟨second, rest⟩⟩
      · simp at several
      · exact absurd rfl (single first)
      · simp
    · have counted : (numbersIn (.num value :: rest)).length = (numbersIn rest).length + 1 := rfl
      omega
  · exact fits

theorem ofTerms {terms : List (Expr κ)} (fits : ∀ term ∈ terms, Fits most term) :
    Fits most (Expr.ofTerms terms) := by
  unfold Expr.ofTerms
  split
  · exact num 0
  · exact fits _ List.mem_cons_self
  · rename_i single several
    have arranged := arrange_perm terms
    refine sum ?_ fun term member => fits term (arranged.mem_iff.mp member)
    rw [arranged.length_eq]
    match terms, single, several with
    | [], single, _ => exact absurd rfl single
    | [term], _, several => exact absurd rfl (several term)
    | _ :: _ :: _, _, _ => simp

theorem ofFactors (coefficient : κ) {operands : List (Expr κ)}
    (fits : ∀ operand ∈ operands, Fits most operand)
    (symbolic : ∀ operand ∈ operands, operand.asNumber? = none) :
    Fits most (Expr.ofFactors coefficient operands) := by
  have arranged := arrange_perm operands
  replace fits : ∀ operand ∈ arrange operands, Fits most operand :=
    fun operand member => fits operand (arranged.mem_iff.mp member)
  replace symbolic : numbersIn (arrange operands) = [] :=
    numbersIn_eq_nil fun operand member => symbolic operand (arranged.mem_iff.mp member)
  unfold Expr.ofFactors
  generalize arrange operands = sorted at *
  split
  · exact num 0
  · match sorted, Scalar.isOne coefficient with
    | [], _ => exact number coefficient
    | [factor], true => exact fits factor List.mem_cons_self
    | first :: second :: rest, true =>
        refine product (by simp) ?_ fits
        rw [symbolic]
        exact Nat.zero_le 1
    | first :: rest, false =>
        have whole : Fits most (.mul (Expr.number coefficient :: first :: rest)) := by
          refine product (by simp) ?_ (List.forall_mem_cons.mpr ⟨number coefficient, fits⟩)
          rw [Expr.number, numbersIn_num, symbolic]
          exact le_rfl
        cases rest <;> exact whole

end Fits

/-- A base whose powers ask for no more rounds than there are. -/
structure FitsBase (most : Nat) (base : Expr κ) : Prop where
  formed : base.WellFormed
  toll_le : toll base base.rounds ≤ most

/-- An exponent whose powers ask for no more rounds than there are. -/
structure FitsExponent (most : Nat) (exponent : Expr κ) : Prop where
  formed : exponent.WellFormed
  climb_le : climb exponent exponent.rounds ≤ most

theorem FitsBase.fits {most : Nat} {base : Expr κ} (fits : FitsBase most base) : Fits most base :=
  ⟨fits.formed, base.rounds_le_toll.trans fits.toll_le⟩

theorem FitsBase.of_nesting {most : Nat} {base : Expr κ} (formed : base.WellFormed)
    (le : 2 * base.nesting ≤ most) : FitsBase most base :=
  ⟨formed, base.toll_le_nesting.trans le⟩

namespace FitsExponent

variable {most : Nat} {exponent : Expr κ}

theorem num (value : κ) : FitsExponent most (num value) := ⟨.num value, Nat.zero_le most⟩

theorem of_fits {less : Nat} (fits : Fits less exponent) (le : 2 + less ≤ most) :
    FitsExponent most exponent :=
  ⟨fits.formed,
    (climb_le_add exponent _).trans ((Nat.add_le_add_left fits.rounds_le 2).trans le)⟩

theorem fits (fits : FitsExponent (2 + most) exponent) : Fits most exponent := by
  cases symbolic : exponent.asNumber? with
  | some value => exact asNumber?_eq_some.mp symbolic ▸ Fits.num value
  | none =>
      have below := fits.climb_le
      rw [climb_of_symbolic symbolic] at below
      exact ⟨fits.formed, Nat.le_of_add_le_add_left below⟩

theorem two_le (fits : FitsExponent most exponent) (symbolic : exponent.asNumber? = none) :
    2 ≤ most := by
  have below := fits.climb_le
  rw [climb_of_symbolic symbolic] at below
  omega

end FitsExponent

namespace Fits

variable {most : Nat}

theorem pow {base exponent : Expr κ} (first : FitsBase most base)
    (second : FitsExponent most exponent) : Fits most (pow base exponent) :=
  ⟨.pow first.formed second.formed, rounds_pow_le.mpr ⟨first.toll_le, second.climb_le⟩⟩

theorem base {factor : Expr κ} (fits : Fits most factor) (flat : factor.label ≠ .mul) :
    FitsBase most factor.baseAndExponent.1 := by
  cases factor with
  | pow base exponent =>
      exact ⟨fits.formed.child List.mem_cons_self, (rounds_pow_le.mp fits.rounds_le).1⟩
  | mul => exact absurd rfl flat
  | _ => exact ⟨fits.formed, fits.rounds_le⟩

theorem exponent {factor : Expr κ} (fits : Fits most factor) :
    FitsExponent most factor.baseAndExponent.2 := by
  cases factor with
  | pow base exponent =>
      exact ⟨fits.formed.child (List.mem_cons_of_mem _ List.mem_cons_self),
        (rounds_pow_le.mp fits.rounds_le).2⟩
  | _ => exact .num 1

end Fits

end Mechanism.Expr
