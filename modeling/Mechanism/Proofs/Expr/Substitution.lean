import Mechanism.Proofs.Expr.Numerals
import Mechanism.Proofs.Expr.Soundness

/-!
Expressions that keep their values when they are built again: from other operands, in other
surroundings, or with expressions in the place of their atoms. An expression with others in the place
of its atoms has the value that it has when its atoms have the values of these others; so atoms may be
bound in groups, one group after the other, as long as no group replaces what an earlier one has put
in.
-/

namespace Mechanism

namespace Expr

variable {κ : Type} [Scalar κ] [Exact κ]

/-- The second expression has the value of the first, where that has one. -/
def Carries (left right : Assignment) (expr other : Expr κ) : Prop :=
  ∀ value, expr.Takes left value → other.Takes right value

section

variable {left right : Assignment}

theorem Carries.sums {exprs others : List (Expr κ)}
    (carries : List.Forall₂ (Carries left right) exprs others) {value : ℝ}
    (sums : SumsTo left exprs value) : SumsTo right others value := by
  induction carries generalizing value with
  | nil => simpa using sums
  | cons head _ ih =>
      obtain ⟨x, y, first, rest, rfl⟩ := sumsTo_cons.mp sums
      exact sumsTo_cons.mpr ⟨x, y, head x first, ih rest, rfl⟩

theorem Carries.multiplies {exprs others : List (Expr κ)}
    (carries : List.Forall₂ (Carries left right) exprs others) {value : ℝ}
    (multiplies : MultipliesTo left exprs value) : MultipliesTo right others value := by
  induction carries generalizing value with
  | nil => simpa using multiplies
  | cons head _ ih =>
      obtain ⟨x, y, first, rest, rfl⟩ := multipliesTo_cons.mp multiplies
      exact multipliesTo_cons.mpr ⟨x, y, head x first, ih rest, rfl⟩

theorem carries_rebuild {expr : Expr κ} (compound : expr.isLeaf = false) {operands : List (Expr κ)}
    (carries : List.Forall₂ (Carries left right) expr.children operands) :
    Carries left right expr (expr.rebuild operands) := by
  intro value takes
  cases expr with
  | num => simp [isLeaf] at compound
  | atom => simp [isLeaf] at compound
  | add => exact takes_sum (Carries.sums carries (takes_add.mp takes))
  | mul => exact takes_product (Carries.multiplies carries (takes_mul.mp takes))
  | pow =>
      obtain ⟨b, e, first, second, power⟩ := takes_pow.mp takes
      cases carries with
      | cons base rest =>
          cases rest with
          | cons exponent rest =>
              cases rest
              exact takes_power (base b first) (exponent e second) power
  | call =>
      obtain ⟨a, first, applied⟩ := takes_call.mp takes
      cases carries with
      | cons argument rest =>
          cases rest
          exact takes_apply (argument a first) applied
  | angle =>
      obtain ⟨ordinate, abscissa, first, second, rfl⟩ := takes_angle.mp takes
      cases carries with
      | cons y rest =>
          cases rest with
          | cons x rest =>
              cases rest
              exact takes_angleOf (y ordinate first) (x abscissa second)
  | cond =>
      obtain ⟨l, r, first, second, taken⟩ := takes_cond.mp takes
      match operands, carries with
      | [_, _, _, _], .cons lhs (.cons rhs (.cons chosen (.cons otherwise .nil))) =>
          apply takes_choose (lhs l first) (rhs r second)
          split
          · rename_i holds
            rw [if_pos holds] at taken
            exact chosen value taken
          · rename_i fails
            rw [if_neg fails] at taken
            exact otherwise value taken

theorem Carries.refl_num (number : κ) : Carries left right (num number) (num number) := by
  intro value takes
  rw [takes_num] at takes ⊢
  exact takes

/-- Substitution keeps the value that an expression has when every atom has the value of what is
put in its place. -/
theorem carries_substitute (replacement : Atom → Option (Expr κ)) (expr : Expr κ)
    (atoms : ∀ symbol ∈ expr.occurrences,
      Carries left right (atom symbol) (replacementOf replacement symbol)) :
    Carries left right expr (expr.substitute replacement) := by
  induction expr using induct with
  | step expr ih =>
      by_cases leaf : expr.isLeaf = true
      · cases expr with
        | num number =>
            rw [substitute_compound replacement rfl]
            exact Carries.refl_num number
        | atom symbol =>
            rw [substitute_atom]
            exact atoms symbol (by simp [occurrences])
        | _ => simp [isLeaf] at leaf
      · have compound : expr.asAtom? = none := by
          cases expr <;> simp_all [asAtom?, isLeaf]
        rw [substitute_compound replacement compound]
        apply carries_rebuild (by simpa using leaf)
        rw [List.forall₂_map_right_iff, List.forall₂_same]
        intro child member
        apply ih child member
        intro symbol reads
        apply atoms
        rw [occurrences_eq expr compound]
        exact List.mem_flatMap.mpr ⟨child, member, reads⟩

theorem carries_node {expr : Expr κ} (compound : expr.asAtom? = none)
    (carries : ∀ child ∈ expr.children, Carries left right child child) :
    Carries left right expr expr := by
  intro value takes
  cases expr with
  | num number => exact Carries.refl_num number value takes
  | atom => simp [asAtom?] at compound
  | add terms =>
      exact takes_add.mpr (Carries.sums (List.forall₂_same.mpr carries) (takes_add.mp takes))
  | mul operands =>
      exact takes_mul.mpr (Carries.multiplies (List.forall₂_same.mpr carries) (takes_mul.mp takes))
  | pow =>
      obtain ⟨b, e, first, second, power⟩ := takes_pow.mp takes
      exact takes_pow.mpr ⟨b, e, carries _ (by simp [children]) b first,
        carries _ (by simp [children]) e second, power⟩
  | call =>
      obtain ⟨a, first, applied⟩ := takes_call.mp takes
      exact takes_call.mpr ⟨a, carries _ (by simp [children]) a first, applied⟩
  | angle =>
      obtain ⟨ordinate, abscissa, first, second, same⟩ := takes_angle.mp takes
      exact takes_angle.mpr ⟨ordinate, abscissa, carries _ (by simp [children]) ordinate first,
        carries _ (by simp [children]) abscissa second, same⟩
  | cond =>
      obtain ⟨l, r, first, second, taken⟩ := takes_cond.mp takes
      refine takes_cond.mpr ⟨l, r, carries _ (by simp [children]) l first,
        carries _ (by simp [children]) r second, carries _ ?_ value taken⟩
      split <;> simp [children]

theorem carries_of_agree (expr : Expr κ)
    (agree : ∀ symbol ∈ expr.occurrences, ∀ value,
      left symbol = some value → right symbol = some value) :
    Carries left right expr expr := by
  induction expr using induct with
  | step expr ih =>
      cases found : expr.asAtom? with
      | some symbol =>
          have shape : expr = atom symbol := by
            cases expr <;> simp_all [asAtom?]
          subst shape
          intro value takes
          rw [takes_atom] at takes ⊢
          exact agree symbol (by simp [occurrences]) value takes
      | none =>
          apply carries_node found
          intro child member
          apply ih child member
          intro symbol reads
          apply agree
          rw [occurrences_eq expr found]
          exact List.mem_flatMap.mpr ⟨child, member, reads⟩

end

open Classical in
/-- What is built has the value of the operation on the values of the operands, however these are
dropped, merged, flattened or folded; and a tree that is built again from its leaves keeps its
value. -/
structure Faithful (κ : Type) [Scalar κ] [Exact κ] (assignment : Assignment) : Prop where
  sum : ∀ terms : List (Expr κ), (∀ term ∈ terms, term.Defined assignment) →
    (sum terms).Takes assignment (terms.map (valueIn assignment)).sum
  product : ∀ operands : List (Expr κ), (∀ operand ∈ operands, operand.Defined assignment) →
    (product operands).Takes assignment (operands.map (valueIn assignment)).prod
  power : ∀ (base exponent : Expr κ) (value : ℝ), base.Defined assignment →
    exponent.Defined assignment →
    realPower (base.valueIn assignment) (exponent.valueIn assignment) = some value →
    (power base exponent).Takes assignment value
  apply : ∀ (function : Elementary) (argument : Expr κ) (value : ℝ), argument.Defined assignment →
    function.realApply (argument.valueIn assignment) = some value →
    (apply function argument).Takes assignment value
  angle : ∀ y x : Expr κ, y.Defined assignment → x.Defined assignment →
    (angleOf y x).Takes assignment (realAngle (y.valueIn assignment) (x.valueIn assignment))
  choose : ∀ (relation : Relation) (left right chosen otherwise : Expr κ) (value : ℝ),
    left.Defined assignment → right.Defined assignment →
    (if relation.Holds (left.valueIn assignment) (right.valueIn assignment) then chosen
      else otherwise).Takes assignment value →
    (choose relation left right chosen otherwise).Takes assignment value
  rebuilt : ∀ (expr : Expr κ) (value : ℝ), expr.Takes assignment value →
    (expr.substitute fun _ => none).Takes assignment value

theorem constructors_faithful (assignment : Assignment) : Faithful κ assignment where
  sum _ defined := takes_sum ⟨defined, rfl⟩
  product _ defined := takes_product ⟨defined, rfl⟩
  power _ _ _ base exponent power := takes_power base.takes exponent.takes power
  apply _ _ _ argument applied := takes_apply argument.takes applied
  angle _ _ y x := takes_angleOf y.takes x.takes
  choose _ _ _ _ _ _ left right taken := takes_choose left.takes right.takes taken
  rebuilt expr := carries_substitute (fun _ => none) expr fun _ _ _ => id

/-- The second expression has the value of the first, where that has one. -/
def Keeps (left right : Environment) (expr other : Expr κ) : Prop :=
  ∀ value, expr.Means left value → other.Means right value

variable {left right : Environment}

theorem keeps_iff_carries {expr other : Expr κ} :
    Keeps left right expr other ↔ Carries left.read right.read expr other := by
  simp only [Keeps, Carries, means_iff_takes]

theorem keeps_rebuild {expr : Expr κ} (compound : expr.isLeaf = false) {operands : List (Expr κ)}
    (keeps : List.Forall₂ (Keeps left right) expr.children operands) :
    Keeps left right expr (expr.rebuild operands) :=
  keeps_iff_carries.mpr
    (carries_rebuild compound (keeps.imp fun _ _ => keeps_iff_carries.mp))

theorem keeps_substitute (replacement : Atom → Option (Expr κ)) (expr : Expr κ)
    (atoms : ∀ symbol ∈ expr.occurrences,
      Keeps left right (atom symbol) (replacementOf replacement symbol)) :
    Keeps left right expr (expr.substitute replacement) :=
  keeps_iff_carries.mpr (carries_substitute replacement expr fun symbol reads =>
    keeps_iff_carries.mp (atoms symbol reads))

theorem keeps_of_agree (expr : Expr κ)
    (agree : ∀ symbol ∈ expr.occurrences, ∀ value,
      left.read symbol = some value → right.read symbol = some value) :
    Keeps left right expr expr :=
  keeps_iff_carries.mpr (carries_of_agree expr agree)

end Expr

/-- Each atom that is replaced has the value of its replacement, and any other one its own. -/
noncomputable def Assignment.through {κ : Type} [Scalar κ] [Exact κ] (assignment : Assignment)
    (replacement : Atom → Option (Expr κ)) : Assignment := fun symbol =>
  match replacement symbol with
  | some expr => expr.realValue? assignment
  | none => assignment symbol

namespace Expr

/-- What the first group with a binding for an atom binds it to. -/
def combined {β : Type} (groups : List (Atom → Option β)) (symbol : Atom) : Option β :=
  groups.findSome? fun group => group symbol

theorem combined_cons {β : Type} (group : Atom → Option β) (groups : List (Atom → Option β))
    (symbol : Atom) :
    combined (group :: groups) symbol = (group symbol).or (combined groups symbol) := by
  rw [combined, List.findSome?_cons]
  cases group symbol <;> rfl

theorem combined_append {β : Type} (groups later : List (Atom → Option β)) (symbol : Atom) :
    combined (groups ++ later) symbol = (combined groups symbol).or (combined later symbol) :=
  List.findSome?_append

theorem combined_map {β γ : Type} (change : β → γ) (groups : List (Atom → Option β))
    (symbol : Atom) :
    combined (groups.map fun group symbol => (group symbol).map change) symbol =
      (combined groups symbol).map change := by
  induction groups with
  | nil => rfl
  | cons head tail ih =>
      rw [List.map_cons, combined_cons, combined_cons, ih]
      cases head symbol <;> rfl

variable {κ : Type} [Scalar κ]

def substituteInTurn (groups : List (Atom → Option (Expr κ))) (expr : Expr κ) : Expr κ :=
  groups.foldl (fun result group => result.substitute group) expr

def withNumbersInTurn (groups : List (Atom → Option κ)) (expr : Expr κ) : Expr κ :=
  groups.foldl (fun result group => result.withNumbers group) expr

/-- No group replaces an atom of what an earlier one puts in. -/
def Separate (groups : List (Atom → Option (Expr κ))) : Prop :=
  groups.Pairwise fun earlier later =>
    ∀ symbol expr, earlier symbol = some expr → ∀ read ∈ expr.occurrences, later read = none

theorem separate_numbers (groups : List (Atom → Option κ)) :
    Separate (groups.map fun group symbol => (group symbol).map number) := by
  refine List.pairwise_map.mpr (List.pairwise_of_forall fun earlier later symbol expr found => ?_)
  obtain ⟨value, _, rfl⟩ := Option.map_eq_some_iff.mp found
  intro read member
  cases member

theorem withNumbersInTurn_eq (groups : List (Atom → Option κ)) (expr : Expr κ) :
    expr.withNumbersInTurn groups =
      expr.substituteInTurn (groups.map fun group symbol => (group symbol).map number) := by
  rw [withNumbersInTurn, substituteInTurn, List.foldl_map]
  rfl

variable [Exact κ] {assignment : Assignment}

theorem takes_replacementOf (replacement : Atom → Option (Expr κ)) {symbol : Atom} {value : ℝ}
    (bound : assignment.through replacement symbol = some value) :
    (replacementOf replacement symbol).Takes assignment value := by
  rw [replacementOf]
  rw [Assignment.through] at bound
  cases found : replacement symbol with
  | some expr =>
      rw [found] at bound
      exact bound
  | none =>
      rw [found] at bound
      exact (takes_atom symbol value).mpr bound

theorem takes_substitute (replacement : Atom → Option (Expr κ)) {expr : Expr κ} {value : ℝ}
    (takes : expr.Takes (assignment.through replacement) value) :
    (expr.substitute replacement).Takes assignment value := by
  refine carries_substitute replacement expr (fun symbol _ number isNumber => ?_) value takes
  exact takes_replacementOf replacement ((takes_atom symbol number).mp isNumber)

theorem through_combined_cons {group : Atom → Option (Expr κ)}
    {groups : List (Atom → Option (Expr κ))} (separate : Separate (group :: groups)) {symbol : Atom}
    {value : ℝ} (bound : assignment.through (combined (group :: groups)) symbol = some value) :
    (assignment.through (combined groups)).through group symbol = some value := by
  rw [Assignment.through, combined_cons] at bound
  rw [Assignment.through]
  cases found : group symbol with
  | none =>
      rw [found] at bound
      exact bound
  | some expr =>
      rw [found] at bound
      refine carries_of_agree expr (fun read member number known => ?_) value bound
      have untouched : combined groups read = none :=
        List.findSome?_eq_none_iff.mpr fun later among =>
          (List.pairwise_cons.mp separate).1 later among symbol expr found read member
      rw [Assignment.through, untouched]
      exact known

theorem takes_substituteInTurn {groups : List (Atom → Option (Expr κ))} (separate : Separate groups)
    {expr : Expr κ} {value : ℝ} (takes : expr.Takes (assignment.through (combined groups)) value) :
    (expr.substituteInTurn groups).Takes assignment value := by
  induction groups generalizing expr with
  | nil => exact takes
  | cons group groups ih =>
      apply ih (List.pairwise_cons.mp separate).2
      apply takes_substitute group
      exact carries_of_agree expr (fun _ _ _ known => through_combined_cons separate known) value
        takes

theorem takes_withNumbersInTurn {groups : List (Atom → Option κ)} {expr : Expr κ} {value : ℝ}
    (takes : expr.Takes
      (assignment.through fun symbol => (combined groups symbol).map number) value) :
    (expr.withNumbersInTurn groups).Takes assignment value := by
  rw [withNumbersInTurn_eq]
  apply takes_substituteInTurn (separate_numbers groups)
  rwa [funext (combined_map number groups)]

theorem through_combined_append (groups : List (Atom → Option κ)) (last : Atom → Option κ) :
    (Assignment.through (fun symbol => (last symbol).map Exact.real) fun symbol =>
        (combined groups symbol).map number) =
      fun symbol => (combined (groups ++ [last]) symbol).map Exact.real := by
  funext symbol
  rw [Assignment.through, combined_append]
  cases combined groups symbol with
  | some value => exact takes_number value
  | none =>
      rw [combined_cons]
      cases last symbol <;> rfl

/-- Where an expression has a value when each atom has that of its replacement, it has this value
after the substitution. So it does not matter in which groups atoms are bound, be it to expressions
that no later group changes, or to numbers; and the numbers of the last group may as well be left
to an evaluation. -/
theorem bound_in_groups (expr : Expr κ) (assignment : Assignment) :
    (∀ (replacement : Atom → Option (Expr κ)) (value : ℝ),
      expr.Takes (assignment.through replacement) value →
        (expr.substitute replacement).Takes assignment value) ∧
    (∀ (groups : List (Atom → Option (Expr κ))) (value : ℝ), Separate groups →
      expr.Takes (assignment.through (combined groups)) value →
        (expr.substitute (combined groups)).Takes assignment value ∧
          (expr.substituteInTurn groups).Takes assignment value) ∧
    (∀ (groups : List (Atom → Option κ)) (value : ℝ),
      expr.Takes (assignment.through fun symbol => (combined groups symbol).map number) value →
        (expr.withNumbers (combined groups)).Takes assignment value ∧
          (expr.withNumbersInTurn groups).Takes assignment value) ∧
    ∀ (groups : List (Atom → Option κ)) (last : Atom → Option κ) (value : κ),
      expr.evaluate (combined (groups ++ [last])) = some value →
        ∃ result, (expr.withNumbersInTurn groups).evaluate last = some result ∧
          Exact.real result = Exact.real value := by
  refine ⟨fun replacement _ => takes_substitute replacement, ?_, ?_, ?_⟩
  · intro groups value separate takes
    exact ⟨takes_substitute _ takes, takes_substituteInTurn separate takes⟩
  · intro groups value takes
    exact ⟨takes_substitute _ takes, takes_withNumbersInTurn takes⟩
  · intro groups last value evaluated
    have whole := real_evaluate (combined (groups ++ [last])) expr
    rw [evaluated, ← through_combined_append groups last] at whole
    have parts := real_evaluate last (expr.withNumbersInTurn groups)
    rw [takes_withNumbersInTurn whole.symm] at parts
    exact Option.map_eq_some_iff.mp parts

namespace Quotient

def x : Atom := .whole ⟨1, "x", .scalar, .real⟩

def y : Atom := .whole ⟨2, "y", .scalar, .real⟩

def z : Atom := .whole ⟨3, "z", .scalar, .real⟩

noncomputable def quotient : Expr RealNumber := mul [atom x, pow (atom y) (num (-1))]

theorem takes_quotient {assignment : Assignment} {dividend divisor : ℝ}
    (first : assignment x = some dividend) (second : assignment y = some divisor)
    (nonzero : divisor ≠ 0) : quotient.Takes assignment (dividend / divisor) := by
  have power : (pow (atom y) (num (-1)) : Expr RealNumber).Takes assignment divisor⁻¹ := by
    refine takes_pow.mpr
      ⟨divisor, -1, (takes_atom y divisor).mpr second, (takes_num _ _).mpr rfl, ?_⟩
    have whole : realPower divisor ((-1 : ℤ) : ℝ) = some divisor⁻¹ :=
      realPower_whole.mpr ⟨fun zero => absurd zero nonzero, zpow_neg_one divisor⟩
    rwa [Int.cast_neg, Int.cast_one] at whole
  refine takes_mul.mpr ⟨?_, ?_⟩
  · exact List.forall_mem_cons.mpr ⟨⟨_, (takes_atom x dividend).mpr first⟩,
      List.forall_mem_singleton.mpr ⟨_, power⟩⟩
  · rw [List.map_cons, List.map_singleton, ((takes_atom x dividend).mpr first).valueIn_eq,
      power.valueIn_eq, List.prod_cons, List.prod_singleton, div_eq_mul_inv]

noncomputable def replaceBy (symbol : Atom) (expr : Expr RealNumber) (other : Atom) :
    Option (Expr RealNumber) :=
  if other = symbol then some expr else none

noncomputable def dividendOnly (other : Atom) : Option RealNumber :=
  if other = x then some ⟨6⟩ else none

/-- One symbol for both, one after the other; and numbers for both, the second one at the end. -/
theorem bound_in_groups_quotient :
    (quotient.substituteInTurn [replaceBy x (atom z), replaceBy y (atom z)]).Takes
        (fun _ => some 2) 1 ∧
      ∃ result, (quotient.withNumbersInTurn [dividendOnly]).evaluate (fun _ => some ⟨3⟩) =
        some result ∧ Exact.real result = 2 := by
  obtain ⟨_, inTurn, _, _⟩ := bound_in_groups quotient fun _ => some 2
  obtain ⟨_, _, _, atLast⟩ := bound_in_groups quotient fun _ => none
  constructor
  · have separate : Separate [replaceBy x (atom z), replaceBy y (atom z)] := by
      refine List.pairwise_pair.mpr fun symbol expr found read member => ?_
      obtain ⟨_, same⟩ := Option.ite_none_right_eq_some.mp found
      cases same
      rw [List.mem_singleton.mp member]
      decide
    have takes : quotient.Takes (Assignment.through (fun _ => some 2)
        (combined [replaceBy x (atom z), replaceBy y (atom z)])) (2 / 2) :=
      takes_quotient (realValue?_atom z) (realValue?_atom z) two_ne_zero
    rw [div_self two_ne_zero] at takes
    exact (inTurn _ 1 separate takes).2
  · have takes : quotient.Takes (fun symbol =>
        (combined [dividendOnly, fun _ => some ⟨3⟩] symbol).map Exact.real) (6 / 3) :=
      takes_quotient rfl rfl three_ne_zero
    rw [Takes, ← real_evaluate] at takes
    obtain ⟨value, evaluated, same⟩ := Option.map_eq_some_iff.mp takes
    obtain ⟨result, found, equal⟩ := atLast [dividendOnly] _ value evaluated
    exact ⟨result, found, by rw [equal, same]; norm_num⟩

end Quotient

end Expr

end Mechanism
