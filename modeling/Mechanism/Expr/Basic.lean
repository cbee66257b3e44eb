import Mechanism.Scalar
import Mechanism.Symbol

/-!
Expression trees over symbols and numbers, and their fingerprints.

Sums and products have any number of operands. The fingerprint and the nesting of a tree are
found once, when its root is made, so a tree whose parts are shared many times costs no more than
its distinct parts.
-/

namespace Mechanism

inductive Expr (κ : Type) [Scalar κ] where
  | num (value : κ)
  | atom (atom : Atom)
  | add (terms : List (Expr κ))
  | mul (factors : List (Expr κ))
  | pow (base exponent : Expr κ)
  | call (function : Elementary) (argument : Expr κ)
  | angle (y x : Expr κ)
  | cond (relation : Relation) (left right chosen otherwise : Expr κ)
with
  @[computed_field] fingerprintIn : (κ : Type) → (scalar : Scalar κ) → Expr κ → UInt64
    | κ, scalar, expr => match expr with
      | .num value => Fingerprint.mixWord (Fingerprint.tagged "n") (Scalar.word value)
      | .atom symbol => symbol.fingerprint
      | .add terms =>
        terms.attach.foldl (fun state ⟨term, _⟩ =>
          Fingerprint.mixWord state (fingerprintIn κ scalar term)) (Fingerprint.tagged "+")
      | .mul factors =>
        factors.attach.foldl (fun state ⟨factor, _⟩ =>
          Fingerprint.mixWord state (fingerprintIn κ scalar factor)) (Fingerprint.tagged "*")
      | .pow base exponent =>
        Fingerprint.mixWords (Fingerprint.tagged "^")
          [fingerprintIn κ scalar base, fingerprintIn κ scalar exponent]
      | .call function argument =>
        Fingerprint.mixWord (Fingerprint.mixText (Fingerprint.tagged "f") function.name)
          (fingerprintIn κ scalar argument)
      | .angle y x =>
        Fingerprint.mixWords (Fingerprint.tagged "atan2")
          [fingerprintIn κ scalar y, fingerprintIn κ scalar x]
      | .cond relation left right chosen otherwise =>
        Fingerprint.mixWords (Fingerprint.mixText (Fingerprint.tagged "if") relation.mark)
          [fingerprintIn κ scalar left, fingerprintIn κ scalar right,
            fingerprintIn κ scalar chosen, fingerprintIn κ scalar otherwise]
  @[computed_field] nestingIn : (κ : Type) → (scalar : Scalar κ) → Expr κ → Nat
    | κ, scalar, expr => match expr with
      | .add terms =>
        1 + terms.attach.foldl (fun most ⟨term, _⟩ => max most (nestingIn κ scalar term)) 0
      | .mul factors =>
        1 + factors.attach.foldl (fun most ⟨factor, _⟩ => max most (nestingIn κ scalar factor)) 0
      | .pow base exponent => 1 + max (nestingIn κ scalar base) (nestingIn κ scalar exponent)
      | _ => 0

inductive Label (κ : Type) where
  | num (value : κ)
  | atom (atom : Atom)
  | add
  | mul
  | pow
  | call (function : Elementary)
  | angle
  | cond (relation : Relation)
  deriving DecidableEq

namespace Expr

variable {κ : Type} [scalar : Scalar κ]

def children : Expr κ → List (Expr κ)
  | num _ => []
  | atom _ => []
  | add terms => terms
  | mul factors => factors
  | pow base exponent => [base, exponent]
  | call _ argument => [argument]
  | angle y x => [y, x]
  | cond _ left right chosen otherwise => [left, right, chosen, otherwise]

def label : Expr κ → Label κ
  | num value => .num value
  | atom symbol => .atom symbol
  | add _ => .add
  | mul _ => .mul
  | pow .. => .pow
  | call function _ => .call function
  | angle .. => .angle
  | cond relation .. => .cond relation

theorem eq_iff_label_children (left right : Expr κ) :
    left = right ↔ left.label = right.label ∧ left.children = right.children := by
  cases left <;> cases right <;> simp [label, children]

theorem sizeOf_lt_of_mem_children {expr child : Expr κ} (member : child ∈ expr.children) :
    sizeOf child < sizeOf expr := by
  cases expr <;> simp only [children, List.mem_cons, List.not_mem_nil, or_false] at member
  case add terms => rw [add.sizeOf_spec]; have := List.sizeOf_lt_of_mem member; omega
  case mul factors => rw [mul.sizeOf_spec]; have := List.sizeOf_lt_of_mem member; omega
  case pow => rw [pow.sizeOf_spec]; rcases member with rfl | rfl <;> omega
  case call => rw [call.sizeOf_spec]; subst member; omega
  case angle => rw [angle.sizeOf_spec]; rcases member with rfl | rfl <;> omega
  case cond => rw [cond.sizeOf_spec]; rcases member with rfl | rfl | rfl | rfl <;> omega

def asNumber? : Expr κ → Option κ
  | num value => some value
  | _ => none

def asAtom? : Expr κ → Option Atom
  | atom symbol => some symbol
  | _ => none

def isLeaf : Expr κ → Bool
  | num _ => true
  | atom _ => true
  | _ => false

/-- Numbers and symbols enter by their words and names, all else by its operands. -/
def fingerprint (expr : Expr κ) : UInt64 := expr.fingerprintIn κ scalar

/-- How deeply sums, products and powers are nested in each other at the root of a tree. -/
def nesting (expr : Expr κ) : Nat := expr.nestingIn κ scalar

def nestingOf (operands : List (Expr κ)) : Nat :=
  operands.foldl (fun most operand => max most operand.nesting) 0

theorem fingerprint_atom (symbol : Atom) :
    (atom symbol : Expr κ).fingerprint = symbol.fingerprint := by
  rw [fingerprint, fingerprintIn]

theorem fingerprint_add (terms : List (Expr κ)) :
    (add terms).fingerprint =
      Fingerprint.mixWords (Fingerprint.tagged "+") (terms.map fingerprint) := by
  simp only [fingerprint, fingerprintIn, Fingerprint.mixWords, List.foldl_map]
  exact List.foldl_attach
    (f := fun state child => Fingerprint.mixWord state (fingerprintIn κ scalar child))

theorem fingerprint_mul (factors : List (Expr κ)) :
    (mul factors).fingerprint =
      Fingerprint.mixWords (Fingerprint.tagged "*") (factors.map fingerprint) := by
  simp only [fingerprint, fingerprintIn, Fingerprint.mixWords, List.foldl_map]
  exact List.foldl_attach
    (f := fun state child => Fingerprint.mixWord state (fingerprintIn κ scalar child))

theorem fingerprint_pow (base exponent : Expr κ) :
    (pow base exponent).fingerprint =
      Fingerprint.mixWords (Fingerprint.tagged "^") [base.fingerprint, exponent.fingerprint] := by
  simp only [fingerprint, fingerprintIn]

theorem fingerprint_call (function : Elementary) (argument : Expr κ) :
    (call function argument).fingerprint =
      Fingerprint.mixWord (Fingerprint.mixText (Fingerprint.tagged "f") function.name)
        argument.fingerprint := by
  simp only [fingerprint, fingerprintIn]

theorem fingerprint_angle (y x : Expr κ) :
    (angle y x).fingerprint =
      Fingerprint.mixWords (Fingerprint.tagged "atan2") [y.fingerprint, x.fingerprint] := by
  simp only [fingerprint, fingerprintIn]

theorem fingerprint_cond (relation : Relation) (left right chosen otherwise : Expr κ) :
    (cond relation left right chosen otherwise).fingerprint =
      Fingerprint.mixWords (Fingerprint.mixText (Fingerprint.tagged "if") relation.mark)
        [left.fingerprint, right.fingerprint, chosen.fingerprint, otherwise.fingerprint] := by
  simp only [fingerprint, fingerprintIn]

theorem nesting_add (terms : List (Expr κ)) : (add terms).nesting = 1 + nestingOf terms := by
  simp only [nesting, nestingIn, nestingOf]
  exact congrArg (1 + ·)
    (List.foldl_attach (f := fun most child => max most (nestingIn κ scalar child)))

theorem nesting_mul (factors : List (Expr κ)) : (mul factors).nesting = 1 + nestingOf factors := by
  simp only [nesting, nestingIn, nestingOf]
  exact congrArg (1 + ·)
    (List.foldl_attach (f := fun most child => max most (nestingIn κ scalar child)))

theorem nesting_pow (base exponent : Expr κ) :
    (pow base exponent).nesting = 1 + max base.nesting exponent.nesting := by
  simp only [nesting, nestingIn]

instance : Inhabited (Expr κ) := ⟨num 0⟩

def isZero (expr : Expr κ) : Bool := expr.asNumber?.any Scalar.isZero

def isOne (expr : Expr κ) : Bool := expr.asNumber?.any Scalar.isOne

end Expr

end Mechanism
