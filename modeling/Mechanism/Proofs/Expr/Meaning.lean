import Mechanism.Proofs.Exact
import Mechanism.Proofs.Expr.Uses

/-!
The real value of an expression, where it has one. A choice has the value of the branch that is
taken, whatever becomes of the other one.

The real value of an expression under values of its atoms, whatever the atoms are. Where the atoms
read an environment, this is what the expression means in it; and over exact numbers it is what
evaluation computes.
-/

namespace Mechanism

/-- Real values of the entries of symbols; none where there is no value. -/
abbrev Environment := Symbol → Nat → Option ℝ

namespace Environment

def read (environment : Environment) (atom : Atom) : Option ℝ :=
  environment atom.symbol atom.flatIndex

open Classical in
theorem choose_eq_some {property : ℝ → Prop}
    (unique : ∀ {x y : ℝ}, property x → property y → x = y) {value : ℝ} :
    (if found : ∃ value, property value then some found.choose else none) = some value ↔
      property value := by
  split
  · rename_i found
    rw [Option.some.injEq]
    constructor
    · rintro rfl
      exact found.choose_spec
    · exact unique found.choose_spec
  · rename_i missing
    constructor
    · intro none
      cases none
    · intro holds
      exact absurd ⟨value, holds⟩ missing

end Environment

namespace Expr

variable {κ : Type} [Scalar κ] [Exact κ]

def gather : List (Option ℝ) → Option (List ℝ)
  | [] => some []
  | head :: tail => do
    let value ← head
    let values ← gather tail
    return value :: values

open Classical in
noncomputable def meaningAt (environment : Environment) (expr : Expr κ)
    (values : List (Option ℝ)) : Option ℝ :=
  match expr, values with
  | num value, _ => some (Exact.real value)
  | atom symbol, _ => environment.read symbol
  | add _, _ => (gather values).map List.sum
  | mul _, _ => (gather values).map List.prod
  | pow .., [base, exponent] => do
    let b ← base
    let e ← exponent
    realPower b e
  | call function _, [argument] => do
    let value ← argument
    function.realApply value
  | angle .., [y, x] => do
    let ordinate ← y
    let abscissa ← x
    some (realAngle ordinate abscissa)
  | cond relation .., [left, right, chosen, otherwise] => do
    let l ← left
    let r ← right
    if relation.Holds l r then chosen else otherwise
  | _, _ => none

noncomputable def meaning (environment : Environment) (expr : Expr κ) : Option ℝ :=
  recurse (meaningAt environment) expr

def Means (environment : Environment) (expr : Expr κ) (value : ℝ) : Prop :=
  expr.meaning environment = some value

variable {environment : Environment}

theorem Means.unique {expr : Expr κ} {first second : ℝ} (left : expr.Means environment first)
    (right : expr.Means environment second) : first = second :=
  Option.some.inj (left.symm.trans right)

theorem meaning_eq (environment : Environment) (expr : Expr κ) :
    expr.meaning environment =
      meaningAt environment expr (expr.children.map (meaning environment)) :=
  recurse_eq (meaningAt environment) expr

theorem means_num (number : κ) (value : ℝ) :
    (num number).Means environment value ↔ Exact.real number = value := by
  rw [Means, meaning_eq]
  exact Option.some_inj

theorem means_atom (symbol : Atom) (value : ℝ) :
    (atom symbol : Expr κ).Means environment value ↔ environment.read symbol = some value := by
  rw [Means, meaning_eq]
  rfl

end Expr

/-- Real values of atoms; none where there is no value. -/
abbrev Assignment := Atom → Option ℝ

namespace Expr

variable {κ : Type} [Scalar κ] [Exact κ]

/-- The value of a node whose operands have the given values, under values of the atoms. -/
noncomputable def realAt (assignment : Assignment) (expr : Expr κ)
    (values : List (Option ℝ)) : Option ℝ :=
  match expr with
  | atom symbol => assignment symbol
  | _ => meaningAt (fun _ _ => none) expr values

noncomputable def realValue? (assignment : Assignment) (expr : Expr κ) : Option ℝ :=
  recurse (realAt assignment) expr

/-- The expression has a value, and this is it. -/
def Takes (assignment : Assignment) (expr : Expr κ) (value : ℝ) : Prop :=
  expr.realValue? assignment = some value

def Defined (assignment : Assignment) (expr : Expr κ) : Prop :=
  ∃ value, expr.Takes assignment value

/-- The value of an expression, and zero where there is none. -/
noncomputable def valueIn (assignment : Assignment) (expr : Expr κ) : ℝ :=
  (expr.realValue? assignment).getD 0

variable {assignment : Assignment}

theorem Takes.valueIn_eq {expr : Expr κ} {value : ℝ} (takes : expr.Takes assignment value) :
    expr.valueIn assignment = value := by
  rw [valueIn, show expr.realValue? assignment = some value from takes, Option.getD_some]

theorem Takes.defined {expr : Expr κ} {value : ℝ} (takes : expr.Takes assignment value) :
    expr.Defined assignment := ⟨value, takes⟩

theorem Defined.takes {expr : Expr κ} (defined : expr.Defined assignment) :
    expr.Takes assignment (expr.valueIn assignment) := by
  obtain ⟨value, takes⟩ := defined
  rwa [takes.valueIn_eq]

theorem gather_map_realValue? {exprs : List (Expr κ)} {values : List ℝ} :
    gather (exprs.map (realValue? assignment)) = some values ↔
      (∀ expr ∈ exprs, expr.Defined assignment) ∧ exprs.map (valueIn assignment) = values := by
  induction exprs generalizing values with
  | nil => simp [gather, eq_comm]
  | cons head tail ih =>
      simp only [List.map_cons, gather, Option.bind_eq_bind, Option.bind_eq_some_iff,
        Option.pure_def, Option.some.injEq, List.forall_mem_cons]
      constructor
      · rintro ⟨value, takes, rest, gathered, rfl⟩
        obtain ⟨defined, rfl⟩ := ih.mp gathered
        have first : head.Takes assignment value := takes
        exact ⟨⟨first.defined, defined⟩, by rw [first.valueIn_eq]⟩
      · rintro ⟨⟨first, defined⟩, rfl⟩
        exact ⟨_, first.takes, _, ih.mpr ⟨defined, rfl⟩, rfl⟩

theorem realValue?_eq (assignment : Assignment) (expr : Expr κ) :
    expr.realValue? assignment =
      realAt assignment expr (expr.children.map (realValue? assignment)) :=
  recurse_eq (realAt assignment) expr

theorem realValue?_num (number : κ) :
    (num number).realValue? assignment = some (Exact.real number) := realValue?_eq ..

theorem realValue?_atom (symbol : Atom) :
    (atom symbol : Expr κ).realValue? assignment = assignment symbol := realValue?_eq ..

theorem realValue?_add (terms : List (Expr κ)) :
    (add terms).realValue? assignment =
      (gather (terms.map (realValue? assignment))).map List.sum := realValue?_eq ..

theorem realValue?_mul (operands : List (Expr κ)) :
    (mul operands).realValue? assignment =
      (gather (operands.map (realValue? assignment))).map List.prod := realValue?_eq ..

theorem realValue?_pow (base exponent : Expr κ) :
    (pow base exponent).realValue? assignment =
      (base.realValue? assignment).bind fun b =>
        (exponent.realValue? assignment).bind (realPower b) := realValue?_eq ..

theorem realValue?_call (function : Elementary) (argument : Expr κ) :
    (call function argument).realValue? assignment =
      (argument.realValue? assignment).bind function.realApply := realValue?_eq ..

theorem realValue?_angle (y x : Expr κ) :
    (angle y x).realValue? assignment =
      (y.realValue? assignment).bind fun ordinate =>
        (x.realValue? assignment).bind fun abscissa => some (realAngle ordinate abscissa) :=
  realValue?_eq ..

open Classical in
theorem realValue?_cond (relation : Relation) (left right chosen otherwise : Expr κ) :
    (cond relation left right chosen otherwise).realValue? assignment =
      (left.realValue? assignment).bind fun l => (right.realValue? assignment).bind fun r =>
        if relation.Holds l r then chosen.realValue? assignment
        else otherwise.realValue? assignment := realValue?_eq ..

theorem takes_num (number : κ) (value : ℝ) :
    (num number).Takes assignment value ↔ Exact.real number = value := by
  rw [Takes, realValue?_num, Option.some.injEq]

theorem takes_atom (symbol : Atom) (value : ℝ) :
    (atom symbol : Expr κ).Takes assignment value ↔ assignment symbol = some value := by
  rw [Takes, realValue?_atom]

theorem takes_add {terms : List (Expr κ)} {value : ℝ} :
    (add terms).Takes assignment value ↔
      (∀ term ∈ terms, term.Defined assignment) ∧
        (terms.map (valueIn assignment)).sum = value := by
  rw [Takes, realValue?_add]
  simp only [Option.map_eq_some_iff, gather_map_realValue?]
  constructor
  · rintro ⟨_, ⟨defined, rfl⟩, rfl⟩
    exact ⟨defined, rfl⟩
  · rintro ⟨defined, rfl⟩
    exact ⟨_, ⟨defined, rfl⟩, rfl⟩

theorem takes_mul {operands : List (Expr κ)} {value : ℝ} :
    (mul operands).Takes assignment value ↔
      (∀ operand ∈ operands, operand.Defined assignment) ∧
        (operands.map (valueIn assignment)).prod = value := by
  rw [Takes, realValue?_mul]
  simp only [Option.map_eq_some_iff, gather_map_realValue?]
  constructor
  · rintro ⟨_, ⟨defined, rfl⟩, rfl⟩
    exact ⟨defined, rfl⟩
  · rintro ⟨defined, rfl⟩
    exact ⟨_, ⟨defined, rfl⟩, rfl⟩

theorem takes_pow {base exponent : Expr κ} {value : ℝ} :
    (pow base exponent).Takes assignment value ↔
      ∃ b e, base.Takes assignment b ∧ exponent.Takes assignment e ∧
        realPower b e = some value := by
  rw [Takes, realValue?_pow]
  simp only [Option.bind_eq_some_iff, Takes]
  constructor
  · rintro ⟨b, first, e, second, power⟩
    exact ⟨b, e, first, second, power⟩
  · rintro ⟨b, e, first, second, power⟩
    exact ⟨b, first, e, second, power⟩

theorem takes_call {function : Elementary} {argument : Expr κ} {value : ℝ} :
    (call function argument).Takes assignment value ↔
      ∃ a, argument.Takes assignment a ∧ function.realApply a = some value := by
  rw [Takes, realValue?_call]
  simp only [Option.bind_eq_some_iff, Takes]

theorem takes_angle {y x : Expr κ} {value : ℝ} :
    (angle y x).Takes assignment value ↔
      ∃ ordinate abscissa, y.Takes assignment ordinate ∧ x.Takes assignment abscissa ∧
        realAngle ordinate abscissa = value := by
  rw [Takes, realValue?_angle]
  simp only [Option.bind_eq_some_iff, Takes, Option.some.injEq]
  constructor
  · rintro ⟨ordinate, first, abscissa, second, same⟩
    exact ⟨ordinate, abscissa, first, second, same⟩
  · rintro ⟨ordinate, abscissa, first, second, same⟩
    exact ⟨ordinate, first, abscissa, second, same⟩

open Classical in
theorem takes_cond {relation : Relation} {left right chosen otherwise : Expr κ} {value : ℝ} :
    (cond relation left right chosen otherwise).Takes assignment value ↔
      ∃ l r, left.Takes assignment l ∧ right.Takes assignment r ∧
        (if relation.Holds l r then chosen else otherwise).Takes assignment value := by
  rw [Takes, realValue?_cond]
  simp only [Option.bind_eq_some_iff, Takes]
  constructor
  · rintro ⟨l, first, r, second, taken⟩
    exact ⟨l, r, first, second, by rwa [apply_ite (realValue? assignment)]⟩
  · rintro ⟨l, r, first, second, taken⟩
    exact ⟨l, first, r, second, by rwa [← apply_ite (realValue? assignment)]⟩

theorem meaning_eq_realValue? (environment : Environment) (expr : Expr κ) :
    expr.meaning environment = expr.realValue? environment.read := by
  have same : meaningAt (κ := κ) environment = realAt environment.read := by
    funext expr values
    cases expr <;> rcases values with _ | ⟨_, _ | ⟨_, _ | ⟨_, _ | ⟨_, _ | _⟩⟩⟩⟩ <;> rfl
  rw [meaning, same, realValue?]

theorem means_iff_takes {environment : Environment} {expr : Expr κ} {value : ℝ} :
    expr.Means environment value ↔ expr.Takes environment.read value := by
  rw [Means, Takes, meaning_eq_realValue?]

theorem real_combineAll {combine : κ → κ → κ} {operation : ℝ → ℝ → ℝ}
    (exact : ∀ left right, Exact.real (combine left right) =
      operation (Exact.real left) (Exact.real right)) (start : κ) (values : List (Option κ)) :
    (combineAll combine start values).map Exact.real =
      (gather (values.map (Option.map Exact.real))).map
        (List.foldl operation (Exact.real start)) := by
  induction values generalizing start with
  | nil => rfl
  | cons head tail ih =>
      rw [combineAll, List.foldlM_cons, List.map_cons, gather]
      cases head with
      | none => rfl
      | some value =>
          have later := ih (combine start value)
          rw [combineAll, exact, Option.map_eq_bind (x := gather _)] at later
          simpa [Option.map_bind, Function.comp_def] using later

theorem holds_iff (relation : Relation) (left right : κ) :
    relation.holds left right = true ↔ relation.Holds (Exact.real left) (Exact.real right) := by
  cases relation with
  | less => exact Exact.isLess_iff left right
  | greater => exact Exact.isLess_iff right left
  | equal => exact Exact.isEqual_iff left right

open Classical in
theorem real_valueAt (assignment : Atom → Option κ) (expr : Expr κ) (values : List (Option κ)) :
    (valueAt assignment expr values).map Exact.real =
      realAt (fun symbol => (assignment symbol).map Exact.real) expr
        (values.map (Option.map Exact.real)) := by
  cases expr with
  | num => rfl
  | atom => rfl
  | add =>
      rw [valueAt, real_combineAll Exact.real_add, Exact.real_zero]
      exact congrArg (Option.map · _) (funext fun _ => List.sum_eq_foldl.symm)
  | mul =>
      rw [valueAt, real_combineAll Exact.real_mul, Exact.real_one]
      exact congrArg (Option.map · _) (funext fun _ => List.prod_eq_foldl.symm)
  | pow =>
      match values with
      | [some base, some exponent] => exact Exact.real_power base exponent
      | [none, _] | [some _, none] | [] | [_] | _ :: _ :: _ :: _ => rfl
  | call function =>
      match values with
      | [some argument] => exact Exact.real_apply function argument
      | [none] | [] | _ :: _ :: _ => rfl
  | angle =>
      match values with
      | [some y, some x] => exact congrArg some (Exact.real_angle y x)
      | [none, _] | [some _, none] | [] | [_] | _ :: _ :: _ :: _ => rfl
  | cond relation =>
      match values with
      | [some left, some right, chosen, otherwise] =>
          change Option.map Exact.real (if relation.holds left right then chosen else otherwise) =
            if relation.Holds (Exact.real left) (Exact.real right) then chosen.map Exact.real
            else otherwise.map Exact.real
          rw [apply_ite (Option.map Exact.real)]
          exact if_congr (holds_iff relation left right) rfl rfl
      | [none, _, _, _] | [some _, none, _, _] => rfl
      | [] | [_] | [_, _] | [_, _, _] | _ :: _ :: _ :: _ :: _ :: _ => rfl

theorem real_evaluate (assignment : Atom → Option κ) (expr : Expr κ) :
    (expr.evaluate assignment).map Exact.real =
      expr.realValue? fun symbol => (assignment symbol).map Exact.real := by
  induction expr using induct with
  | step expr ih =>
      rw [evaluate_eq, real_valueAt, realValue?_eq, List.map_map]
      exact congrArg _ (List.map_congr_left ih)

end Expr

end Mechanism
