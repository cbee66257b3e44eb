import Mechanism.Expr.Equality

/-!
Functions that give a tree a value from the values of its operands.

`recurse` is the plain recursion. `fold` computes the same without visiting a node twice: the
values already known are kept under the addresses of their nodes, and each is kept together with
the proof that it is what `recurse` gives. So the answer cannot depend on where nodes lie in
memory, and `fold_eq` is the equation by which such a function is reasoned about.
-/

namespace Mechanism.Expr

variable {κ β : Type} [Scalar κ]

mutual
def recurse (step : Expr κ → List β → β) : Expr κ → β
  | num value => step (num value) []
  | atom symbol => step (atom symbol) []
  | add terms => step (add terms) (recurseAll step terms)
  | mul factors => step (mul factors) (recurseAll step factors)
  | pow base exponent => step (pow base exponent) [recurse step base, recurse step exponent]
  | call function argument => step (call function argument) [recurse step argument]
  | angle y x => step (angle y x) [recurse step y, recurse step x]
  | cond relation left right chosen otherwise =>
    step (cond relation left right chosen otherwise)
      [recurse step left, recurse step right, recurse step chosen, recurse step otherwise]
def recurseAll (step : Expr κ → List β → β) : List (Expr κ) → List β
  | [] => []
  | head :: tail => recurse step head :: recurseAll step tail
end

theorem recurseAll_eq (step : Expr κ → List β → β) (exprs : List (Expr κ)) :
    recurseAll step exprs = exprs.map (recurse step) := by
  induction exprs with
  | nil => rfl
  | cons head tail ih => simp [recurseAll, ih]

theorem recurse_eq (step : Expr κ → List β → β) (expr : Expr κ) :
    recurse step expr = step expr (expr.children.map (recurse step)) := by
  cases expr <;> simp [recurse, recurseAll_eq, children]

structure Valued (step : Expr κ → List β → β) (expr : Expr κ) where
  value : β
  value_eq : value = recurse step expr

instance {step : Expr κ → List β → β} {expr : Expr κ} : Subsingleton (Valued step expr) where
  allEq := fun ⟨_, left⟩ ⟨_, right⟩ => by subst left right; rfl

/-- Known values by the addresses of their nodes. Nothing but known values can be read from it,
so any two of them count as the same. -/
abbrev Known (step : Expr κ → List β → β) : Type :=
  Squash (Std.HashMap USize ((expr : Expr κ) × Valued step expr))

namespace Known

variable {step : Expr κ → List β → β}

def lookup? (table : Std.HashMap USize ((expr : Expr κ) × Valued step expr)) (address : USize)
    (expr : Expr κ) : Option (Valued step expr) :=
  match table[address]? with
  | none => none
  | some ⟨other, valued⟩ => if same : other = expr then some (same ▸ valued) else none

def keep (known : Known step) (address : USize) (expr : Expr κ) (valued : Valued step expr) :
    Known step :=
  known.lift fun table => Squash.mk (table.insert address ⟨expr, valued⟩)

/-- The value of an expression: the known one, or the one computed now, which is then kept. -/
def remember (known : Known step) (expr : Expr κ)
    (compute : Known step → Known step × Valued step expr) : Known step × Valued step expr :=
  withPtrAddr expr (fun address =>
    known.lift fun table =>
      match lookup? table address expr with
      | some valued => (Squash.mk table, valued)
      | none =>
        let (known, valued) := compute (Squash.mk table)
        (known.keep address expr valued, valued))
    (fun _ _ => Subsingleton.elim _ _)

def gather : (exprs : List (Expr κ)) → Known step →
    ((expr : Expr κ) → expr ∈ exprs → Known step → Known step × Valued step expr) →
    Known step × { values : List β // values = exprs.map (recurse step) }
  | [], known, _ => (known, ⟨[], rfl⟩)
  | head :: tail, known, visit =>
    let (known, first) := visit head List.mem_cons_self known
    let (known, ⟨rest, rest_eq⟩) :=
      gather tail known fun expr member => visit expr (List.mem_cons_of_mem _ member)
    (known, ⟨first.value :: rest, by rw [List.map_cons, first.value_eq, rest_eq]⟩)

end Known

def visit (step : Expr κ → List β → β) (expr : Expr κ) (known : Known step) :
    Known step × Valued step expr :=
  if leaf : expr.children.isEmpty then
    (known, ⟨step expr [], by rw [recurse_eq, List.isEmpty_iff.1 leaf, List.map_nil]⟩)
  else
    known.remember expr fun known =>
      let (known, ⟨values, values_eq⟩) :=
        Known.gather expr.children known fun child _ known => visit step child known
      (known, ⟨step expr values, by rw [values_eq, recurse_eq]⟩)
termination_by sizeOf expr
decreasing_by exact sizeOf_lt_of_mem_children ‹_›

/-- The value of a tree, when `step` gives that of a node from those of its operands. -/
def fold (step : Expr κ → List β → β) (expr : Expr κ) : β :=
  (visit step expr (Squash.mk ∅)).2.value

theorem fold_eq_recurse (step : Expr κ → List β → β) : fold step = recurse step :=
  funext fun expr => (visit step expr (Squash.mk ∅)).2.value_eq

theorem fold_eq (step : Expr κ → List β → β) (expr : Expr κ) :
    fold step expr = step expr (expr.children.map (fold step)) := by
  rw [fold_eq_recurse, recurse_eq]

end Mechanism.Expr
