import Mechanism.Proofs.Double
import Mechanism.Proofs.Expr.Stability
import Mechanism.Expr.Reading

/-!
Numbers put in place of all atoms. The constructors fold numbers as evaluation computes with them, but
for two things: they keep a power and a function as they are where the result would not be finite, and
they know one zero only. So an expression folds to its value, as long as evaluation carries out nothing
that is not finite or tells the two zeros apart.
-/

namespace Mechanism

namespace Expr

variable {κ : Type} [Scalar κ]

/-- Sums, products and comparisons of numbers do not depend on the signs of zeros, up to the sign of
a zero result, and neither do powers whose exponent is zero or one. -/
class Signless (κ : Type) [Scalar κ] : Prop where
  unsigned_add : ∀ left right : κ, Scalar.unsigned (Scalar.unsigned left + Scalar.unsigned right) =
    Scalar.unsigned (left + right)
  unsigned_mul : ∀ left right : κ, Scalar.unsigned (Scalar.unsigned left * Scalar.unsigned right) =
    Scalar.unsigned (left * right)
  holds_unsigned : ∀ (relation : Relation) (left right : κ),
    relation.holds (Scalar.unsigned left) (Scalar.unsigned right) = relation.holds left right
  power_zero : ∀ base : κ, (Scalar.power base 0).map Scalar.unsigned = some 1
  power_one : ∀ base exponent : κ, Scalar.isOne exponent = true →
    (Scalar.power base exponent).map Scalar.unsigned = some (Scalar.unsigned base)

theorem unsigned_real (value : RealNumber) : Scalar.unsigned value = value := by
  unfold Scalar.unsigned
  split
  · rename_i zero
    exact congrArg RealNumber.mk ((Exact.isEqual_iff value 0).mp zero).symm
  · rfl

noncomputable instance : Signless RealNumber where
  unsigned_add left right := by simp only [unsigned_real]
  unsigned_mul left right := by simp only [unsigned_real]
  holds_unsigned relation left right := by simp only [unsigned_real]
  power_zero base := by
    have power : Scalar.power base 0 = (realPower base.value 0).map .mk := rfl
    rw [power, realPower_zero, Option.map_some, Option.map_some, unsigned_real]
    rfl
  power_one base exponent isOne := by
    have one : exponent.value = 1 := (Exact.isEqual_iff exponent 1).mp isOne
    have power : Scalar.power base exponent = (realPower base.value exponent.value).map .mk := rfl
    rw [power, one, realPower_one, Option.map_some, Option.map_some]

instance : Signless Float where
  unsigned_add := Double.unsigned_add
  unsigned_mul := Double.unsigned_mul
  holds_unsigned := Double.holds_unsigned
  power_zero base := congrArg (fun value => some (Scalar.unsigned value)) (Double.power_zero base)
  power_one base exponent isOne := by
    rw [Double.eq_one isOne]
    exact congrArg (fun value => some (Scalar.unsigned value)) (Double.power_one base)

theorem eq_zero_of_unsigned {value : κ}
    (zero : Scalar.isZero (Scalar.unsigned value) = true) : Scalar.unsigned value = 0 := by
  unfold Scalar.unsigned at zero ⊢
  split
  · rfl
  · rename_i nonzero
    rw [if_neg nonzero] at zero
    exact absurd zero nonzero

theorem number_unsigned (value : κ) : (number (Scalar.unsigned value) : Expr κ) = number value := by
  rw [number, number, unsigned_unsigned]

theorem numbersIn_map_num (values : List κ) : numbersIn (values.map num) = values := by
  rw [numbersIn, List.filterMap_map]
  exact List.filterMap_some

theorem sum_numbers (values : List κ) :
    sum (values.map num) = number (values.foldl (· + ·) 0) := by
  have leaves : addendsOf (values.map num) = values.map num :=
    addendsOf_eq_self (List.forall_mem_map.mpr fun _ _ => nofun)
  have nothing : likeTerms (symbolicIn (values.map num)) = [] := by
    have none : symbolicIn (values.map num) = [] :=
      List.filter_eq_nil_iff.mpr (List.forall_mem_map.mpr fun _ _ => nofun)
    rw [none]
    rfl
  rw [sum, fuelFor, sumWith]
  simp only [leaves, nothing, numbersIn_map_num, List.filterMap_nil, List.nil_append]
  split
  · rename_i zero
    rw [number, Scalar.unsigned, if_pos zero]
    rfl
  · rfl

theorem product_numbers (values : List κ) :
    product (values.map num) = number (values.foldl (· * ·) 1) := by
  have leaves : factorsOf (values.map num) = values.map num :=
    factorsOf_eq_self (List.forall_mem_map.mpr fun _ _ => nofun)
  have nothing : likeBases (symbolicIn (values.map num)) = [] := by
    have none : symbolicIn (values.map num) = [] :=
      List.filter_eq_nil_iff.mpr (List.forall_mem_map.mpr fun _ _ => nofun)
    rw [none]
    rfl
  rw [product, fuelFor, productWith]
  simp only [leaves, nothing, numbersIn_map_num, List.map_nil, List.flatMap_nil]
  split
  · rename_i zero
    rw [number, Scalar.unsigned, if_pos zero]
    rfl
  · rename_i nonzero
    change ofFactors (values.foldl (· * ·) 1) [] = _
    rw [ofFactors, if_neg nonzero]
    rfl

/-- An operation gives a finite number, and gives the same up to the sign of a zero. -/
def Yields (folded : Option κ) (value : κ) : Prop :=
  ∃ result, folded = some result ∧ Scalar.isFinite result = true ∧
    Scalar.unsigned result = Scalar.unsigned value

theorem foldedPower?_nums {base exponent value : κ}
    (powered : Scalar.power base exponent = some value) (finite : Scalar.isFinite value = true) :
    foldedPower? (num base) (num exponent) = some value := by
  rw [foldedPower?, powered, Option.filter_some, if_pos finite]

theorem apply_num {function : Elementary} {argument value : κ}
    (applied : Scalar.apply function argument = some value)
    (finite : Scalar.isFinite value = true) : apply function (num argument) = number value := by
  have folded : (num argument : Expr κ).asNumber?.bind (fun value =>
      (Scalar.apply function value).filter Scalar.isFinite) = some value := by
    rw [asNumber?, Option.bind_some, applied, Option.filter_some, if_pos finite]
  rw [apply]
  simp only [folded]

theorem power_numbers [Signless κ] {base exponent value : κ}
    (yields : Yields (Scalar.power (Scalar.unsigned base) (Scalar.unsigned exponent)) value) :
    power (number base) (number exponent) = number value := by
  obtain ⟨result, powered, finite, same⟩ := yields
  have target : (number value : Expr κ) = num (Scalar.unsigned result) := by rw [number, same]
  rw [target, power, fuelFor]
  unfold powerWith
  split
  · rename_i zero
    have exponentZero := @eq_zero_of_unsigned κ _ exponent zero
    have one := Signless.power_zero (Scalar.unsigned base)
    rw [← exponentZero, powered] at one
    exact congrArg num (Option.some.inj one).symm
  split
  · rename_i isOne
    have first := Signless.power_one (Scalar.unsigned base) (Scalar.unsigned exponent) isOne
    rw [powered, unsigned_unsigned] at first
    exact congrArg num (Option.some.inj first).symm
  · rw [number, number, foldedPower?_nums powered finite]
    rfl

theorem apply_number {function : Elementary} {argument value : κ}
    (yields : Yields (Scalar.apply function (Scalar.unsigned argument)) value) :
    apply function (number argument) = number value := by
  obtain ⟨result, applied, finite, same⟩ := yields
  exact (apply_num applied finite).trans (congrArg num same)

theorem angleOf_numbers {y x value : κ}
    (same : Scalar.unsigned (Scalar.angle (Scalar.unsigned y) (Scalar.unsigned x)) =
      Scalar.unsigned value) : angleOf (number y) (number x) = number value := by
  change number (Scalar.angle (Scalar.unsigned y) (Scalar.unsigned x)) = number value
  rw [number, same, number]

theorem choose_numbers [Signless κ] (relation : Relation) (left right : κ) (chosen otherwise : Expr κ) :
    choose relation (number left) (number right) chosen otherwise =
      if relation.holds left right then chosen else otherwise := by
  change (if relation.holds (Scalar.unsigned left) (Scalar.unsigned right) then chosen
    else otherwise) = _
  rw [Signless.holds_unsigned]

/-- Every power and every function that evaluation carries out has a finite value, and neither they nor
the angles tell the two zeros apart. -/
inductive Foldable (assignment : Atom → Option κ) : Expr κ → Prop where
  | number (value : κ) : Foldable assignment (number value)
  | atom (symbol : Atom) : Foldable assignment (atom symbol)
  | add {terms : List (Expr κ)} (each : ∀ term ∈ terms, Foldable assignment term) :
    Foldable assignment (add terms)
  | mul {operands : List (Expr κ)} (each : ∀ operand ∈ operands, Foldable assignment operand) :
    Foldable assignment (mul operands)
  | pow {base exponent : Expr κ} (inBase : Foldable assignment base)
    (inExponent : Foldable assignment exponent)
    (yields : ∀ b e value, base.evaluate assignment = some b →
      exponent.evaluate assignment = some e → Scalar.power b e = some value →
        Yields (Scalar.power (Scalar.unsigned b) (Scalar.unsigned e)) value) :
    Foldable assignment (pow base exponent)
  | call {function : Elementary} {argument : Expr κ} (inside : Foldable assignment argument)
    (yields : ∀ a value, argument.evaluate assignment = some a → Scalar.apply function a = some value →
      Yields (Scalar.apply function (Scalar.unsigned a)) value) :
    Foldable assignment (call function argument)
  | angle {y x : Expr κ} (inOrdinate : Foldable assignment y) (inAbscissa : Foldable assignment x)
    (same : ∀ b a, y.evaluate assignment = some b → x.evaluate assignment = some a →
      Scalar.unsigned (Scalar.angle (Scalar.unsigned b) (Scalar.unsigned a)) =
        Scalar.unsigned (Scalar.angle b a)) :
    Foldable assignment (angle y x)
  | cond {relation : Relation} {left right chosen otherwise : Expr κ}
    (inLeft : Foldable assignment left) (inRight : Foldable assignment right)
    (taken : ∀ l r, left.evaluate assignment = some l → right.evaluate assignment = some r →
      Foldable assignment (if relation.holds l r then chosen else otherwise)) :
    Foldable assignment (cond relation left right chosen otherwise)

omit [Scalar κ] in
theorem combineAll_eq_some {combine : κ → κ → κ} {start result : κ} {values : List (Option κ)} :
    combineAll combine start values = some result ↔
      ∃ numbers : List κ, values = numbers.map some ∧ numbers.foldl combine start = result := by
  unfold combineAll
  induction values generalizing start with
  | nil =>
      constructor
      · rintro ⟨⟩
        exact ⟨[], rfl, rfl⟩
      · rintro ⟨numbers, none, rfl⟩
        rw [List.map_eq_nil_iff.mp none.symm]
        rfl
  | cons head tail ih =>
      rw [List.foldlM_cons]
      cases head with
      | none =>
          constructor
          · nofun
          · rintro ⟨_ | ⟨number, numbers⟩, some, _⟩ <;> cases some
      | some first =>
          change tail.foldlM _ (combine start first) = some result ↔ _
          rw [ih]
          constructor
          · rintro ⟨numbers, rfl, rfl⟩
            exact ⟨first :: numbers, rfl, rfl⟩
          · rintro ⟨_ | ⟨number, numbers⟩, same, rfl⟩
            · cases same
            · cases same
              exact ⟨numbers, rfl, rfl⟩

section

variable [Signless κ] {assignment : Atom → Option κ}

omit [Signless κ] in
theorem unsigned_foldl {combine : κ → κ → κ}
    (signless : ∀ left right, Scalar.unsigned (combine (Scalar.unsigned left) (Scalar.unsigned right)) =
      Scalar.unsigned (combine left right)) (values : List κ) {left right : κ}
    (same : Scalar.unsigned left = Scalar.unsigned right) :
    Scalar.unsigned ((values.map Scalar.unsigned).foldl combine left) =
      Scalar.unsigned (values.foldl combine right) := by
  induction values generalizing left right with
  | nil => exact same
  | cons head tail ih =>
      refine ih ?_
      rw [← signless, unsigned_unsigned, same, signless]

/-- Numbers in place of the atoms. -/
def withNumbers (assignment : Atom → Option κ) (expr : Expr κ) : Expr κ :=
  expr.substitute fun symbol => (assignment symbol).map number

omit [Signless κ] in
theorem withNumbers_eq {expr : Expr κ} (compound : expr.asAtom? = none) :
    expr.withNumbers assignment = expr.rebuild (expr.children.map (withNumbers assignment)) :=
  substitute_compound _ compound

omit [Signless κ] in
theorem map_withNumbers {exprs : List (Expr κ)} {values : List κ}
    (folds : ∀ expr ∈ exprs, ∀ value, expr.evaluate assignment = some value →
      expr.withNumbers assignment = number value)
    (evaluated : exprs.map (evaluate assignment) = values.map some) :
    exprs.map (withNumbers assignment) = (values.map Scalar.unsigned).map num := by
  induction exprs generalizing values with
  | nil =>
      rw [List.map_eq_nil_iff.mp evaluated.symm]
      rfl
  | cons head tail ih =>
      match values with
      | [] => cases evaluated
      | value :: values =>
          rw [List.map_cons, List.map_cons, List.cons.injEq] at evaluated
          obtain ⟨here, later⟩ := List.forall_mem_cons.mp folds
          rw [List.map_cons, here value evaluated.1, ih later evaluated.2]
          rfl

/-- Where evaluation carries out nothing that folding refuses, numbers put in place of the atoms fold
to the value, up to the sign of a zero. -/
theorem withNumbers_eq_number {expr : Expr κ} (foldable : Foldable assignment expr) {value : κ}
    (evaluated : expr.evaluate assignment = some value) :
    expr.withNumbers assignment = number value := by
  induction foldable generalizing value with
  | number literal =>
      rw [evaluate_eq] at evaluated
      cases evaluated
      rw [withNumbers_eq rfl, number_unsigned]
      rfl
  | atom symbol =>
      rw [evaluate_eq] at evaluated
      have bound : assignment symbol = some value := evaluated
      rw [withNumbers, substitute_eq, replace, bound]
      rfl
  | add _ ih =>
      rw [evaluate_eq] at evaluated
      obtain ⟨values, found, rfl⟩ := combineAll_eq_some.mp evaluated
      rw [withNumbers_eq rfl, children, map_withNumbers ih found]
      refine (sum_numbers _).trans (congrArg num ?_)
      exact unsigned_foldl Signless.unsigned_add values rfl
  | mul _ ih =>
      rw [evaluate_eq] at evaluated
      obtain ⟨values, found, rfl⟩ := combineAll_eq_some.mp evaluated
      rw [withNumbers_eq rfl, children, map_withNumbers ih found]
      refine (product_numbers _).trans (congrArg num ?_)
      exact unsigned_foldl Signless.unsigned_mul values rfl
  | pow _ _ yields inBase inExponent =>
      rw [evaluate_eq] at evaluated
      simp only [children, List.map_cons, List.map_nil, valueAt, Option.bind_eq_bind,
        Option.bind_eq_some_iff] at evaluated
      obtain ⟨b, base, e, exponent, powered⟩ := evaluated
      rw [withNumbers_eq rfl]
      simp only [children, List.map_cons, List.map_nil, inBase base, inExponent exponent]
      exact power_numbers (yields b e value base exponent powered)
  | call _ yields inside =>
      rw [evaluate_eq] at evaluated
      simp only [children, List.map_cons, List.map_nil, valueAt, Option.bind_eq_bind,
        Option.bind_eq_some_iff] at evaluated
      obtain ⟨a, argument, applied⟩ := evaluated
      rw [withNumbers_eq rfl]
      simp only [children, List.map_cons, List.map_nil, inside argument]
      exact apply_number (yields a value argument applied)
  | angle _ _ same inOrdinate inAbscissa =>
      rw [evaluate_eq] at evaluated
      simp only [children, List.map_cons, List.map_nil, valueAt, Option.bind_eq_bind,
        Option.bind_eq_some_iff, Option.some.injEq] at evaluated
      obtain ⟨b, y, a, x, rfl⟩ := evaluated
      rw [withNumbers_eq rfl]
      simp only [children, List.map_cons, List.map_nil, inOrdinate y, inAbscissa x]
      exact angleOf_numbers (same b a y x)
  | @cond relation _ _ chosen otherwise _ _ _ inLeft inRight branch =>
      rw [evaluate_eq] at evaluated
      simp only [children, List.map_cons, List.map_nil, valueAt, Option.bind_eq_bind,
        Option.bind_eq_some_iff] at evaluated
      obtain ⟨l, left, r, right, taken⟩ := evaluated
      rw [withNumbers_eq rfl]
      simp only [children, List.map_cons, List.map_nil, inLeft left, inRight right]
      refine (choose_numbers relation l r _ _).trans ?_
      have folds := @branch l r left right value
      split at taken
      · rename_i holds
        rw [if_pos holds] at folds ⊢
        exact folds taken
      · rename_i fails
        rw [if_neg fails] at folds ⊢
        exact folds taken

end

namespace Ordered

def x : Atom := .whole ⟨1, "x", .scalar, .real⟩

def y : Atom := .whole ⟨2, "y", .scalar, .real⟩

def numbers (symbol : Atom) : Option Float := if symbol = x then some 2 else some 8

/-- A geometric mean and a reciprocal, as long as the numbers stand in order. -/
def mean : Expr Float :=
  cond .less (atom x) (atom y)
    (add [call .sqrt (mul [atom x, atom y]), pow (atom x) (number (-1))])
    (call .ln (atom x))

theorem numbers_x : (atom x : Expr Float).evaluate numbers = some 2 := by
  with_unfolding_all rfl

theorem numbers_y : (atom y : Expr Float).evaluate numbers = some 8 := by
  with_unfolding_all rfl

theorem foldable_mean : Foldable numbers mean := by
  have area : (mul [atom x, atom y] : Expr Float).evaluate numbers = some 16 := by decide +kernel
  have less : (number (-1) : Expr Float).evaluate numbers = some (-1) := by
    with_unfolding_all decide
  refine .cond (.atom x) (.atom y) fun left right leftIs rightIs => ?_
  rw [numbers_x] at leftIs
  rw [numbers_y] at rightIs
  cases leftIs
  cases rightIs
  have sides : ∀ side ∈ [(atom x : Expr Float), atom y], Foldable numbers side :=
    List.forall_mem_cons.mpr ⟨.atom x, List.forall_mem_singleton.mpr (.atom y)⟩
  refine .add (List.forall_mem_cons.mpr ⟨?_, List.forall_mem_singleton.mpr ?_⟩)
  · refine .call (.mul sides) fun product root areaIs rooted => ?_
    rw [area] at areaIs
    cases areaIs
    cases rooted
    exact ⟨4, by with_unfolding_all decide, by decide, by with_unfolding_all decide⟩
  · refine .pow (.atom x) (.number (-1)) fun base exponent power baseIs exponentIs powered => ?_
    rw [numbers_x] at baseIs
    rw [less] at exponentIs
    cases baseIs
    cases exponentIs
    cases powered
    exact ⟨0.5, by decide +kernel, by decide, by decide +kernel⟩

theorem mean_withNumbers : mean.evaluate numbers = some 4.5 ∧
    mean.withNumbers numbers = number 4.5 := by
  have evaluated : mean.evaluate numbers = some 4.5 := by decide +kernel
  exact ⟨evaluated, withNumbers_eq_number foldable_mean evaluated⟩

end Ordered

/-- The sign of the reciprocal of a symbol. -/
def reciprocalSign : Expr Float := call .sign (pow (atom Ordered.x) (number (-1)))

/-- The reciprocal of zero is not finite, its sign is. -/
theorem reciprocalSign_unfolded : reciprocalSign.evaluate (fun _ => some 0) = some 1 ∧
    Scalar.isFinite (1 : Float) = true ∧
      (reciprocalSign.withNumbers fun _ => some 0).asNumber? = none := by
  decide +kernel

end Expr

end Mechanism
