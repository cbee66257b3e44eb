import Mathlib.Algebra.BigOperators.Ring.List
import Mathlib.Algebra.Ring.Nat
import Mechanism.Proofs.Expr.Written

/-!
The effort that an expression takes: its operations, but for the sums, products and powers of which
an operand is a number, or is made of numbers and constant symbols by such arithmetic. The canonical
constructors can spread a power with a number as its exponent over the factors of its base, and so
can take more operations than their operands did, but never more effort.
-/

namespace Mechanism.Expr

variable {κ : Type} [Scalar κ] {unit less : Symbol → Nat} {expr : Expr κ}

/-- The load of a node over operands with the given loads. A function, an angle or a choice is an
operation of its own, and takes the effort of its operands besides. -/
def loadAt (unit : Symbol → Nat) (node : Expr κ) (below : List Nat) : Nat :=
  match node with
  | num _ => 0
  | atom symbol => unit symbol.symbol
  | add _ => below.sum
  | mul _ => below.sum
  | pow .. => below.sum
  | _ => 2 + (below.map (· - 1)).sum

/-- Nothing for arithmetic of numbers and of symbols without a unit, and one more than the effort for
anything else. -/
def load (unit : Symbol → Nat) : Expr κ → Nat := recurse (loadAt unit)

/-- The operations between operands of which each has a load. -/
def effort (unit : Symbol → Nat) (expr : Expr κ) : Nat := expr.load unit - 1

theorem load_eq (unit : Symbol → Nat) (expr : Expr κ) :
    expr.load unit = loadAt unit expr (expr.children.map (load unit)) :=
  recurse_eq _ expr

@[simp] theorem load_num (value : κ) : (num value).load unit = 0 := load_eq unit _

@[simp] theorem load_atom (symbol : Atom) :
    (atom symbol : Expr κ).load unit = unit symbol.symbol :=
  load_eq unit _

theorem load_steady (unit : Symbol → Nat) : SteadyWeight (load unit : Expr κ → Nat) where
  num := load_num
  add terms := load_eq unit (add terms)
  mul factors := load_eq unit (mul factors)
  pow base exponent := by
    rw [load_eq]
    simp [loadAt, children]
  call_mono lighter := by
    rw [load_eq, load_eq unit (call ..)]
    simp only [loadAt, children, List.map_cons, List.map_nil, List.sum_cons, List.sum_nil]
    omega
  angle_mono first second := by
    rw [load_eq, load_eq unit (angle ..)]
    simp only [loadAt, children, List.map_cons, List.map_nil, List.sum_cons, List.sum_nil]
    omega
  cond_mono first second third fourth := by
    rw [load_eq, load_eq unit (Expr.cond ..)]
    simp only [loadAt, children, List.map_cons, List.map_nil, List.sum_cons, List.sum_nil]
    omega
  branches_le relation left right chosen otherwise := by
    rw [load_eq unit (Expr.cond ..)]
    simp only [loadAt, children, List.map_cons, List.map_nil, List.sum_cons, List.sum_nil]
    omega

theorem loadAt_mono {left right : List Nat} (le : List.Forall₂ (· ≤ ·) left right) :
    loadAt unit expr left ≤ loadAt unit expr right := by
  have efforts : List.Forall₂ (· ≤ ·) (left.map (· - 1)) (right.map (· - 1)) :=
    List.forall₂_map_left_iff.mpr (List.forall₂_map_right_iff.mpr
      (le.imp fun _ _ le => Nat.sub_le_sub_right le 1))
  cases expr with
  | num => exact le_rfl
  | atom => exact le_rfl
  | add => exact le.sum_le_sum
  | mul => exact le.sum_le_sum
  | pow => exact le.sum_le_sum
  | _ => exact Nat.add_le_add_left efforts.sum_le_sum 2

theorem loadAt_add_le {α : Type} (items : List α) (first second : α → Nat) :
    loadAt unit expr (items.map fun item => first item + second item) ≤
      loadAt unit expr (items.map first) + (items.map second).sum := by
  have efforts : (items.map fun item => first item + second item - 1).sum ≤
      (items.map fun item => first item - 1).sum + (items.map second).sum := by
    rw [← List.sum_map_add]
    exact List.sum_le_sum fun item _ => by omega
  cases expr with
  | num => exact Nat.zero_le _
  | atom => exact Nat.le_add_right _ _
  | add => exact List.sum_map_add.le
  | mul => exact List.sum_map_add.le
  | pow => exact List.sum_map_add.le
  | _ =>
      simp only [loadAt, List.map_map, Function.comp_def]
      omega

theorem load_rebuild_le {operands : List (Expr κ)} (arity : operands.length = expr.children.length) :
    (expr.rebuild operands).load unit ≤ loadAt unit expr (operands.map (load unit)) := by
  have laws := load_steady (κ := κ) unit
  cases expr with
  | num value => exact (load_eq unit (num value)).le
  | atom symbol => exact (load_eq unit (atom symbol)).le
  | add => exact laws.sum_le operands
  | mul => exact laws.product_le operands
  | pow =>
      obtain ⟨base, exponent, rfl⟩ := List.length_eq_two.mp arity
      simpa [rebuild, loadAt] using laws.power_le base exponent
  | call function =>
      obtain ⟨argument, rfl⟩ := List.length_eq_one_iff.mp arity
      exact (laws.apply_le function argument).trans_eq (load_eq unit _)
  | angle =>
      obtain ⟨y, x, rfl⟩ := List.length_eq_two.mp arity
      exact (laws.angleOf_le y x).trans_eq (load_eq unit _)
  | cond relation =>
      obtain ⟨left, right, chosen, otherwise, rfl⟩ := length_eq_four arity
      exact (laws.choose_le relation left right chosen otherwise).trans_eq (load_eq unit _)

theorem load_le_operations (atMost : ∀ symbol, unit symbol ≤ 1) (expr : Expr κ) :
    expr.load unit ≤ expr.operations + 1 := by
  induction expr using induct with
  | step expr ih =>
      have loads : (expr.children.map (load unit)).sum ≤
          (expr.children.map operations).sum + expr.children.length := by
        calc
          _ ≤ (expr.children.map fun child => child.operations + 1).sum := List.sum_le_sum ih
          _ = _ := by
            rw [List.sum_map_add, List.map_const', List.sum_replicate_nat, Nat.mul_one]
      rw [load_eq, operations_eq]
      cases expr with
      | num => exact Nat.zero_le _
      | atom symbol => simpa [loadAt, operationsAt] using atMost symbol.symbol
      | add terms =>
          simp only [loadAt, operationsAt, total_eq, children] at loads ⊢
          omega
      | mul factors =>
          simp only [loadAt, operationsAt, total_eq, children] at loads ⊢
          omega
      | pow base exponent =>
          simp only [loadAt, operationsAt, total_eq, children, List.length_cons,
            List.length_nil] at loads ⊢
          omega
      | _ =>
          simp only [children, List.mem_cons, List.not_mem_nil, or_false, forall_eq_or_imp,
            forall_eq] at ih
          simp only [loadAt, operationsAt, total_eq, children, List.map_cons, List.map_nil,
            List.sum_cons, List.sum_nil]
          omega

theorem effort_le_operations (atMost : ∀ symbol, unit symbol ≤ 1) (expr : Expr κ) :
    expr.effort unit ≤ expr.operations :=
  Nat.sub_le_iff_le_add.mpr (load_le_operations atMost expr)

theorem loadAt_compound (compound : expr.asAtom? = none) (below : List Nat) :
    loadAt less expr below = loadAt unit expr below := by
  cases expr <;> simp_all [loadAt, asAtom?]

theorem loadAt_children_le (compound : expr.asAtom? = none) (change : Expr κ → Expr κ)
    (each : ∀ child ∈ expr.children, (change child).load less ≤ child.load unit) :
    loadAt less expr ((expr.children.map change).map (load less)) ≤ expr.load unit := by
  rw [load_eq unit, loadAt_compound compound, List.map_map]
  exact loadAt_mono (List.forall₂_map_left_iff.mpr (List.forall₂_map_right_iff.mpr
    (List.forall₂_same.mpr each)))

theorem load_mono (le : ∀ symbol ∈ expr.occurrences, less symbol.symbol ≤ unit symbol.symbol) :
    expr.load less ≤ expr.load unit := by
  induction expr using induct with
  | step expr ih =>
      cases found : expr.asAtom? with
      | some symbol =>
          rw [asAtom?_eq_some.mp found] at le ⊢
          simpa [occurrences] using le
      | none =>
          have lighter := loadAt_children_le found id fun child member =>
            ih child member fun symbol occurs => le symbol (occurrences_of_child member occurs)
          rwa [List.map_id, ← load_eq] at lighter

theorem unit_eq_zero (weightless : expr.load unit = 0) :
    ∀ symbol ∈ expr.occurrences, unit symbol.symbol = 0 := by
  induction expr using induct with
  | step expr ih =>
      intro symbol occurs
      cases found : expr.asAtom? with
      | some other =>
          rw [asAtom?_eq_some.mp found] at occurs weightless
          rw [occurrences, List.mem_singleton] at occurs
          rwa [load_atom, ← occurs] at weightless
      | none =>
          rw [occurrences_eq expr found] at occurs
          obtain ⟨child, member, inside⟩ := List.mem_flatMap.mp occurs
          refine ih child member ?_ symbol inside
          have summand : child.load unit ≤ (expr.children.map (load unit)).sum :=
            List.le_sum_of_mem (List.mem_map_of_mem member)
          rw [load_eq] at weightless
          cases expr with
          | num => cases member
          | atom => cases member
          | add => exact Nat.eq_zero_of_le_zero (summand.trans_eq weightless)
          | mul => exact Nat.eq_zero_of_le_zero (summand.trans_eq weightless)
          | pow => exact Nat.eq_zero_of_le_zero (summand.trans_eq weightless)
          | _ =>
              simp only [loadAt] at weightless
              omega

theorem load_substitute_le {replacement : Atom → Option (Expr κ)}
    (put : ∀ symbol ∈ expr.occurrences,
      (replacementOf replacement symbol).load less ≤ unit symbol.symbol) :
    (expr.substitute replacement).load less ≤ expr.load unit := by
  induction expr using induct with
  | step expr ih =>
      cases found : expr.asAtom? with
      | some symbol =>
          rw [asAtom?_eq_some.mp found] at put ⊢
          rw [substitute_atom, load_atom]
          exact put symbol (by simp [occurrences])
      | none =>
          rw [substitute_compound replacement found]
          refine (load_rebuild_le (List.length_map _)).trans (loadAt_children_le found _ ?_)
          exact fun child member => ih child member fun symbol occurs =>
            put symbol (occurrences_of_child member occurs)

theorem load_le_add_uses {wanted : Symbol} {extra : Nat}
    (away : ∀ symbol, symbol ≠ wanted → less symbol ≤ unit symbol)
    (here : less wanted ≤ unit wanted + extra) (expr : Expr κ) :
    expr.load less ≤ expr.load unit + expr.uses (fun atom => atom.symbol == wanted) * extra := by
  induction expr using induct with
  | step expr ih =>
      cases found : expr.asAtom? with
      | some symbol =>
          rw [asAtom?_eq_some.mp found, load_atom, load_atom, uses_atom]
          by_cases same : symbol.symbol = wanted
          · simpa [same] using here
          · have lighter := away symbol.symbol same
            omega
      | none =>
          rw [load_eq less, load_eq unit, loadAt_compound found, uses_compound _ expr found, usesIn,
            ← List.sum_map_mul_right]
          refine le_trans (loadAt_mono ?_) (loadAt_add_le _ _ _)
          exact List.forall₂_map_left_iff.mpr (List.forall₂_map_right_iff.mpr
            (List.forall₂_same.mpr ih))

def ownEffort (unit : Symbol → Nat) (expr : Expr κ) : Nat :=
  loadAt unit expr (expr.children.map fun child => min 1 (child.load unit)) - 1

theorem sum_min_sub_add_le {α : Type} (items : List α) (weight : α → Nat) :
    (items.map fun item => min 1 (weight item)).sum - 1 +
        (items.map fun item => weight item - 1).sum ≤ (items.map weight).sum - 1 := by
  have all : (items.map fun item => min 1 (weight item)).sum +
      (items.map fun item => weight item - 1).sum = (items.map weight).sum := by
    rw [← List.sum_map_add]
    exact congrArg List.sum (List.map_congr_left fun item _ => by omega)
  induction items with
  | nil => rfl
  | cons head tail ih =>
      simp only [List.map_cons, List.sum_cons] at all ⊢
      have rest := ih (by omega)
      omega

theorem ownEffort_add_le (expr : Expr κ) :
    expr.ownEffort unit + (expr.children.map (effort unit)).sum ≤ expr.effort unit := by
  have split := sum_min_sub_add_le expr.children (load unit)
  have efforts : expr.children.map (effort unit) =
      expr.children.map fun child => child.load unit - 1 := rfl
  rw [ownEffort, effort, load_eq, efforts]
  cases expr with
  | num => exact Nat.le_refl 0
  | atom => simp [children, loadAt]
  | add terms => exact split
  | mul factors => exact split
  | pow base exponent => exact split
  | _ =>
      simp only [children, loadAt, List.map_cons, List.map_nil, List.sum_cons, List.sum_nil]
      omega

variable {names : Expr κ → Option Symbol}

theorem sum_writtenBelow_le
    (operands : ∀ child ∈ expr.children,
      ((child.written names).map (ownEffort unit)).sum ≤ child.effort unit) :
    ((expr.writtenBelow names).map (ownEffort unit)).sum ≤ expr.effort unit := by
  rw [writtenBelow, List.map_cons, List.sum_cons, Grouping.sum_map_flatMap]
  exact (Nat.add_le_add_left (List.sum_le_sum operands) _).trans (ownEffort_add_le expr)

theorem sum_written_le (names : Expr κ → Option Symbol) (expr : Expr κ) :
    ((expr.written names).map (ownEffort unit)).sum ≤ expr.effort unit := by
  induction expr using induct with
  | step expr ih =>
      rw [written_eq]
      split
      · exact Nat.zero_le _
      · exact sum_writtenBelow_le ih

/-- Other units, by which the symbols of parts weigh no more than a unit and no more than these
parts did. -/
structure Lightens (unit less : Symbol → Nat) (names : Expr κ → Option Symbol) : Prop where
  le : ∀ symbol, less symbol ≤ unit symbol
  named : ∀ {part : Expr κ} {symbol : Symbol}, names part = some symbol →
    less symbol ≤ min 1 (part.load unit)

namespace Lightens

variable (lightens : Lightens unit less names)

include lightens

theorem renderBelow_of
    (operands : ∀ child ∈ expr.children, (child.render names).load less ≤
      min 1 (child.load unit) + ((child.written names).map (ownEffort unit)).sum) :
    (expr.renderBelow names).load less ≤
      min 1 (expr.load unit) + ((expr.writtenBelow names).map (ownEffort unit)).sum := by
  rw [writtenBelow, List.map_cons, List.sum_cons, Grouping.sum_map_flatMap]
  cases found : expr.asAtom? with
  | some symbol =>
      have lighter := lightens.le symbol.symbol
      rw [asAtom?_eq_some.mp found, renderBelow, rebuild_leaf rfl]
      simp only [load_atom, ownEffort, loadAt]
      omega
  | none =>
      have units : loadAt unit expr (expr.children.map fun child => min 1 (child.load unit)) ≤
          expr.load unit := by
        rw [load_eq]
        exact loadAt_mono (List.forall₂_map_left_iff.mpr (List.forall₂_map_right_iff.mpr
          (List.forall₂_same.mpr fun child _ => Nat.min_le_right _ _)))
      have rebuilt : (expr.renderBelow names).load less ≤
          loadAt unit expr (expr.children.map fun child =>
            min 1 (child.load unit) + ((child.written names).map (ownEffort unit)).sum) := by
        refine (load_rebuild_le (List.length_map _)).trans ?_
        rw [loadAt_compound found, List.map_map]
        exact loadAt_mono (List.forall₂_map_left_iff.mpr (List.forall₂_map_right_iff.mpr
          (List.forall₂_same.mpr operands)))
      have apart := rebuilt.trans (loadAt_add_le _ _ _)
      rw [ownEffort]
      omega

theorem render (expr : Expr κ) : (expr.render names).load less ≤
    min 1 (expr.load unit) + ((expr.written names).map (ownEffort unit)).sum := by
  induction expr using induct with
  | step expr ih =>
      rw [render_eq]
      cases known : names expr with
      | some symbol =>
          rw [load_atom]
          exact (lightens.named known).trans (Nat.le_add_right _ _)
      | none =>
          rw [written_unnamed known]
          exact lightens.renderBelow_of ih

theorem renderBelow (expr : Expr κ) : (expr.renderBelow names).load less ≤
    min 1 (expr.load unit) + ((expr.writtenBelow names).map (ownEffort unit)).sum :=
  lightens.renderBelow_of fun child _ => lightens.render child

theorem render_le (expr : Expr κ) : (expr.render names).load less ≤ expr.load unit := by
  have rendered := lightens.render expr
  have most : ((expr.written names).map (ownEffort unit)).sum ≤ expr.load unit - 1 :=
    sum_written_le names expr
  omega

theorem renderBelow_le (expr : Expr κ) : (expr.renderBelow names).load less ≤ expr.load unit := by
  have rendered := lightens.renderBelow expr
  have most : ((expr.writtenBelow names).map (ownEffort unit)).sum ≤ expr.load unit - 1 :=
    sum_writtenBelow_le fun child _ => sum_written_le names child
  omega

end Lightens

end Mechanism.Expr
