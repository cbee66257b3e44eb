import Mechanism.Proofs.Expr.Numerals
import Mechanism.Proofs.Expr.Written

/-!
What is folded to a number when expressions are put in place of atoms. Operands that are numbers are
folded, unless a power or a function refuses them. An operand that is no number can get lost all the
same: in a sum, a product, a power or a choice, but not in a function or an angle.
-/

namespace Mechanism

namespace Expr

variable {κ : Type} [Scalar κ] {replacement : Atom → Option (Expr κ)}

theorem power_nums {base exponent value : κ} (powered : Scalar.power base exponent = some value)
    (finite : Scalar.isFinite value = true) :
    ∃ result, power (num base) (num exponent) = num result := by
  rw [power, fuelFor]
  unfold powerWith
  split
  · exact ⟨1, rfl⟩
  split
  · exact ⟨base, rfl⟩
  · rw [foldedPower?_nums powered finite]
    exact ⟨_, rfl⟩

/-- A power or a function whose operands have been folded to numbers has a finite value, except in
branches that are not taken. -/
inductive Unrefused (replacement : Atom → Option (Expr κ)) : Expr κ → Prop where
  | num (value : κ) : Unrefused replacement (num value)
  | atom (symbol : Atom) : Unrefused replacement (atom symbol)
  | add {terms : List (Expr κ)} (each : ∀ term ∈ terms, Unrefused replacement term) :
    Unrefused replacement (add terms)
  | mul {operands : List (Expr κ)} (each : ∀ operand ∈ operands, Unrefused replacement operand) :
    Unrefused replacement (mul operands)
  | pow {base exponent : Expr κ} (inBase : Unrefused replacement base)
    (inExponent : Unrefused replacement exponent)
    (finite : ∀ b e, base.substitute replacement = .num b → exponent.substitute replacement = .num e →
      ∃ value, Scalar.power b e = some value ∧ Scalar.isFinite value = true) :
    Unrefused replacement (pow base exponent)
  | call {function : Elementary} {argument : Expr κ} (inside : Unrefused replacement argument)
    (finite : ∀ a, argument.substitute replacement = .num a →
      ∃ value, Scalar.apply function a = some value ∧ Scalar.isFinite value = true) :
    Unrefused replacement (call function argument)
  | angle {y x : Expr κ} (inOrdinate : Unrefused replacement y)
    (inAbscissa : Unrefused replacement x) : Unrefused replacement (angle y x)
  | cond {relation : Relation} {left right chosen otherwise : Expr κ}
    (inLeft : Unrefused replacement left) (inRight : Unrefused replacement right)
    (taken : ∀ l r, left.substitute replacement = .num l → right.substitute replacement = .num r →
      Unrefused replacement (if relation.holds l r then chosen else otherwise)) :
    Unrefused replacement (cond relation left right chosen otherwise)

theorem map_substitute_nums {exprs : List (Expr κ)}
    (each : ∀ expr ∈ exprs, ∃ value, expr.substitute replacement = num value) :
    ∃ values : List κ, exprs.map (substitute replacement) = values.map num := by
  induction exprs with
  | nil => exact ⟨[], rfl⟩
  | cons head tail ih =>
      obtain ⟨⟨value, first⟩, later⟩ := List.forall_mem_cons.mp each
      obtain ⟨values, rest⟩ := ih later
      exact ⟨value :: values, by rw [List.map_cons, List.map_cons, first, rest]⟩

theorem Unrefused.folds {expr : Expr κ} (unrefused : Unrefused replacement expr)
    (numbers : ∀ symbol ∈ expr.occurrences, ∃ value, replacement symbol = some (.num value)) :
    ∃ value, expr.substitute replacement = .num value := by
  induction unrefused with
  | num value => exact ⟨value, by rw [substitute_compound _ rfl]; rfl⟩
  | atom symbol =>
      obtain ⟨value, known⟩ := numbers symbol (List.mem_singleton_self symbol)
      exact ⟨value, by rw [substitute_atom, replacementOf, known, Option.getD_some]⟩
  | @add terms _ ih =>
      obtain ⟨values, folded⟩ := map_substitute_nums fun term member =>
        ih term member fun symbol occurs => numbers symbol (occurrences_of_child member occurs)
      exact ⟨_, by rw [substitute_compound _ rfl, children, folded]; exact sum_numbers values⟩
  | mul _ ih =>
      obtain ⟨values, folded⟩ := map_substitute_nums fun operand member =>
        ih operand member fun symbol occurs => numbers symbol (occurrences_of_child member occurs)
      exact ⟨_, by rw [substitute_compound _ rfl, children, folded]; exact product_numbers values⟩
  | pow _ _ finite inBase inExponent =>
      obtain ⟨b, base⟩ := inBase fun symbol occurs =>
        numbers symbol (occurrences_of_child List.mem_cons_self occurs)
      obtain ⟨e, exponent⟩ := inExponent fun symbol occurs =>
        numbers symbol (occurrences_of_child (List.mem_cons_of_mem _ List.mem_cons_self) occurs)
      obtain ⟨value, powered, isFinite⟩ := finite b e base exponent
      rw [substitute_compound _ rfl]
      simp only [children, List.map_cons, List.map_nil, base, exponent]
      exact power_nums powered isFinite
  | call _ finite inside =>
      obtain ⟨a, argument⟩ := inside fun symbol occurs =>
        numbers symbol (occurrences_of_child List.mem_cons_self occurs)
      obtain ⟨value, applied, isFinite⟩ := finite a argument
      rw [substitute_compound _ rfl]
      simp only [children, List.map_cons, List.map_nil, argument]
      exact ⟨_, apply_num applied isFinite⟩
  | angle _ _ inOrdinate inAbscissa =>
      obtain ⟨b, y⟩ := inOrdinate fun symbol occurs =>
        numbers symbol (occurrences_of_child List.mem_cons_self occurs)
      obtain ⟨a, x⟩ := inAbscissa fun symbol occurs =>
        numbers symbol (occurrences_of_child (List.mem_cons_of_mem _ List.mem_cons_self) occurs)
      rw [substitute_compound _ rfl]
      simp only [children, List.map_cons, List.map_nil, y, x]
      exact ⟨_, rfl⟩
  | @cond relation left right chosen otherwise _ _ _ inLeft inRight branch =>
      have below (child : Expr κ) (member : child ∈ [left, right, chosen, otherwise]) (symbol : Atom)
          (occurs : symbol ∈ child.occurrences) : ∃ value, replacement symbol = some (.num value) :=
        numbers symbol (occurrences_of_child member occurs)
      obtain ⟨l, leftIs⟩ := inLeft (below left (by simp))
      obtain ⟨r, rightIs⟩ := inRight (below right (by simp))
      have folds := branch l r leftIs rightIs
      rw [substitute_compound _ rfl]
      simp only [children, List.map_cons, List.map_nil, leftIs, rightIs, rebuild, choose]
      split
      · rename_i holds
        rw [if_pos holds] at folds
        exact folds (below chosen (by simp))
      · rename_i fails
        rw [if_neg fails] at folds
        exact folds (below otherwise (by simp))

/-- Whether an operation can come to a number although an operand does not. -/
def absorbs : Expr κ → Bool
  | add _ | mul _ | pow _ _ | cond _ _ _ _ _ => true
  | num _ | atom _ | call _ _ | angle _ _ => false

/-- An operation that reads the atom has been folded to a number, although the operand in which the
atom occurs has not. -/
def Loses (replacement : Atom → Option (Expr κ)) (symbol : Atom) (part : Expr κ) : Prop :=
  (∃ operand ∈ part.children, symbol ∈ operand.occurrences ∧
    (operand.substitute replacement).asNumber? = none) ∧
  ∃ value, part.substitute replacement = num value

theorem part_of_child {expr child part : Expr κ} (member : child ∈ expr.children)
    (among : part ∈ child.parts) : part ∈ expr.parts := by
  rw [parts_eq]
  exact List.mem_cons_of_mem _ (List.mem_flatMap.mpr ⟨child, member, among⟩)

/-- An atom for which no number was put is not in a number, unless it got lost on the way. -/
theorem exists_loses {expr : Expr κ} {symbol : Atom} (occurs : symbol ∈ expr.occurrences)
    (symbolic : (replacementOf replacement symbol).asNumber? = none) {value : κ}
    (folded : expr.substitute replacement = num value) :
    ∃ part ∈ expr.parts, Loses replacement symbol part := by
  induction expr using induct generalizing value with
  | step expr ih =>
      cases found : expr.asAtom? with
      | some other =>
          obtain rfl := asAtom?_eq_some.mp found
          obtain rfl := List.mem_singleton.mp occurs
          rw [substitute_atom] at folded
          rw [folded] at symbolic
          cases symbolic
      | none =>
          rw [occurrences_eq expr found] at occurs
          obtain ⟨child, member, inside⟩ := List.mem_flatMap.mp occurs
          cases number : (child.substitute replacement).asNumber? with
          | none =>
              exact ⟨expr, by rw [parts_eq]; exact List.mem_cons_self,
                ⟨child, member, inside, number⟩, value, folded⟩
          | some inner =>
              obtain ⟨part, among, loses⟩ := ih child member inside (asNumber?_eq_some.mp number)
              exact ⟨part, part_of_child member among, loses⟩

theorem apply_symbolic {function : Elementary} {argument : Expr κ}
    (symbolic : argument.asNumber? = none) : apply function argument = call function argument := by
  rw [apply, symbolic]
  rfl

theorem angleOf_symbolic {y x : Expr κ} (symbolic : y.asNumber? = none ∨ x.asNumber? = none) :
    angleOf y x = angle y x := by
  cases y <;> cases x <;> first | rfl | simp [asNumber?] at symbolic

theorem Loses.absorbs {symbol : Atom} {part : Expr κ} (loses : Loses replacement symbol part) :
    part.absorbs = true := by
  obtain ⟨⟨operand, member, _, symbolic⟩, value, folded⟩ := loses
  cases part with
  | add | mul | pow | cond => rfl
  | num | atom => cases member
  | call function argument =>
      obtain rfl := List.mem_singleton.mp member
      rw [substitute_compound _ rfl] at folded
      exact absurd ((apply_symbolic symbolic).symm.trans folded) nofun
  | angle y x =>
      rw [substitute_compound _ rfl] at folded
      have either : (y.substitute replacement).asNumber? = none ∨
          (x.substitute replacement).asNumber? = none := by
        rcases List.mem_pair.mp member with rfl | rfl
        · exact .inl symbolic
        · exact .inr symbolic
      exact absurd ((angleOf_symbolic either).symm.trans folded) nofun

end Expr

end Mechanism
