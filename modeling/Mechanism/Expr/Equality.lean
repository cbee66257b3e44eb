import Mechanism.Expr.Basic
import Std.Data.HashMap

/-!
Equality of expressions. It is structural, and three things keep it from walking whole trees:

- different fingerprints tell trees apart
- a tree that lies at one address with the other is equal to it
- a pair of parts that was found equal is not walked again

What was found equal is kept under the addresses of both parts, together with the proof, so the
answer cannot depend on where nodes lie in memory.
-/

namespace Mechanism.Expr

variable {κ : Type} [Scalar κ]

theorem ne_of_fingerprint_ne {left right : Expr κ}
    (prints : left.fingerprint ≠ right.fingerprint) : left ≠ right :=
  fun same => prints (congrArg fingerprint same)

def compareAll : (lefts rights : List (Expr κ)) →
    ((left : Expr κ) → left ∈ lefts → (right : Expr κ) → Decidable (left = right)) →
    Decidable (lefts = rights)
  | [], [], _ => isTrue rfl
  | [], _ :: _, _ => isFalse nofun
  | _ :: _, [], _ => isFalse nofun
  | left :: lefts, right :: rights, decide =>
    match decide left List.mem_cons_self right with
    | isFalse unlike => isFalse fun same => unlike (List.cons.inj same).1
    | isTrue head =>
      match compareAll lefts rights fun item member =>
        decide item (List.mem_cons_of_mem _ member) with
      | isFalse unlike => isFalse fun same => unlike (List.cons.inj same).2
      | isTrue tail => isTrue (by rw [head, tail])

def compare (left right : Expr κ) : Decidable (left = right) :=
  withPtrEqDecEq left right fun _ =>
    if labels : left.label = right.label then
      match compareAll left.children right.children fun child _ other =>
        if prints : child.fingerprint = other.fingerprint then compare child other
        else isFalse (ne_of_fingerprint_ne prints) with
      | isTrue same => isTrue ((eq_iff_label_children left right).2 ⟨labels, same⟩)
      | isFalse unlike => isFalse fun same => unlike (congrArg children same)
    else isFalse fun same => labels (congrArg label same)
termination_by sizeOf left
decreasing_by exact sizeOf_lt_of_mem_children ‹_›

/-- Pairs of equal parts by their addresses. Nothing but true equations can be read from it, so
any two of them count as the same. -/
abbrev Twins (κ : Type) [Scalar κ] : Type :=
  Squash (Std.HashMap (USize × USize) { pair : Expr κ × Expr κ // pair.1 = pair.2 })

namespace Twins

def lookup? (table : Std.HashMap (USize × USize) { pair : Expr κ × Expr κ // pair.1 = pair.2 })
    (addresses : USize × USize) (left right : Expr κ) : Option (PLift (left = right)) :=
  match table[addresses]? with
  | none => none
  | some ⟨(one, other), same⟩ =>
    match compare one left, compare other right with
    | isTrue first, isTrue second => some ⟨first ▸ second ▸ same⟩
    | _, _ => none

def keep (twins : Twins κ) (addresses : USize × USize) {left right : Expr κ}
    (same : left = right) : Twins κ :=
  twins.lift fun table => Squash.mk (table.insert addresses ⟨(left, right), same⟩)

def compareAll : (lefts rights : List (Expr κ)) → Twins κ →
    ((left : Expr κ) → left ∈ lefts → (right : Expr κ) → Twins κ →
      Twins κ × Decidable (left = right)) →
    Twins κ × Decidable (lefts = rights)
  | [], [], twins, _ => (twins, isTrue rfl)
  | [], _ :: _, twins, _ => (twins, isFalse nofun)
  | _ :: _, [], twins, _ => (twins, isFalse nofun)
  | left :: lefts, right :: rights, twins, decide =>
    match decide left List.mem_cons_self right twins with
    | (twins, isFalse unlike) => (twins, isFalse fun same => unlike (List.cons.inj same).1)
    | (twins, isTrue head) =>
      match compareAll lefts rights twins fun item member =>
        decide item (List.mem_cons_of_mem _ member) with
      | (twins, isFalse unlike) => (twins, isFalse fun same => unlike (List.cons.inj same).2)
      | (twins, isTrue tail) => (twins, isTrue (by rw [head, tail]))

def compare (left right : Expr κ) (twins : Twins κ) : Twins κ × Decidable (left = right) :=
  if left.isLeaf then (twins, left.compare right)
  else
    withPtrAddr left (fun leftAddress =>
      withPtrAddr right (fun rightAddress =>
        if leftAddress == rightAddress then (twins, left.compare right)
        else
          twins.lift fun table =>
            match lookup? table (leftAddress, rightAddress) left right with
            | some same => (Squash.mk table, isTrue same.down)
            | none =>
              if labels : left.label = right.label then
                match compareAll left.children right.children (Squash.mk table)
                  fun child _ other twins =>
                    if prints : child.fingerprint = other.fingerprint then
                      compare child other twins
                    else (twins, isFalse (ne_of_fingerprint_ne prints)) with
                | (twins, isTrue operands) =>
                  have same := (eq_iff_label_children left right).2 ⟨labels, operands⟩
                  (Twins.keep twins (leftAddress, rightAddress) same, isTrue same)
                | (twins, isFalse unlike) =>
                  (twins, isFalse fun same => unlike (congrArg children same))
              else (Squash.mk table, isFalse fun same => labels (congrArg label same)))
        (fun _ _ => Subsingleton.elim _ _))
      (fun _ _ => Subsingleton.elim _ _)
termination_by sizeOf left
decreasing_by all_goals exact sizeOf_lt_of_mem_children ‹_›

end Twins

def decideEq (left right : Expr κ) : Decidable (left = right) :=
  if prints : left.fingerprint = right.fingerprint then
    (Twins.compare left right (Squash.mk ∅)).2
  else isFalse (ne_of_fingerprint_ne prints)

instance : DecidableEq (Expr κ) := decideEq

instance : Hashable (Expr κ) := ⟨fingerprint⟩

end Mechanism.Expr
