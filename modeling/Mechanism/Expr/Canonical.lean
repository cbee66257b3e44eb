import Mechanism.Expr.Equality
import Mechanism.Grouping
import Mechanism.Ordering

/-!
The constructors through which expressions are built. They keep every result in canonical form:

- sums and products are flat, and their operands are in order
- numbers are folded, unless the result would not be finite
- like terms of a sum and like bases of a product are collected

Sums, products and powers call each other on operands of smaller nesting. The calls are counted
down from a number that the nesting of the operands gives, and a call that found none left would
keep its operands as they are.
-/

namespace Mechanism.Expr

variable {κ : Type} [Scalar κ]

def rank : Expr κ → Nat
  | num _ => 0
  | atom _ => 1
  | call .. => 2
  | pow .. => 2
  | _ => 3

def precedes (left right : Expr κ) : Bool :=
  left.rank < right.rank || (left.rank == right.rank && left.fingerprint < right.fingerprint)

def arrange (operands : List (Expr κ)) : List (Expr κ) := Ordering.sort precedes operands

theorem arrange_perm (operands : List (Expr κ)) : (arrange operands).Perm operands :=
  Ordering.sort_perm precedes operands

def number (value : κ) : Expr κ := num (Scalar.unsigned value)

def zero : Expr κ := num 0

def one : Expr κ := num 1

def integer (value : Int) : Expr κ := number (Scalar.ofInt value)

mutual
def addends : Expr κ → List (Expr κ)
  | add terms => addendsOf terms
  | term => [term]
def addendsOf : List (Expr κ) → List (Expr κ)
  | [] => []
  | head :: tail => addends head ++ addendsOf tail
end

mutual
def factors : Expr κ → List (Expr κ)
  | mul operands => factorsOf operands
  | factor => [factor]
def factorsOf : List (Expr κ) → List (Expr κ)
  | [] => []
  | head :: tail => factors head ++ factorsOf tail
end

def numbersIn (operands : List (Expr κ)) : List κ := operands.filterMap asNumber?

def symbolicIn (operands : List (Expr κ)) : List (Expr κ) :=
  operands.filter fun operand => operand.asNumber?.isNone

def splitCoefficient (term : Expr κ) : κ × Expr κ :=
  match term with
  | num value => (value, one)
  | mul (num value :: [factor]) => (value, factor)
  | mul (num value :: rest) => (value, mul rest)
  | _ => (1, term)

def baseAndExponent (factor : Expr κ) : Expr κ × Expr κ :=
  match factor with
  | pow base exponent => (base, exponent)
  | _ => (factor, one)

def likeTerms (terms : List (Expr κ)) : List (Expr κ × κ) :=
  let pairs := terms.map fun term =>
    let (coefficient, rest) := term.splitCoefficient
    (rest, coefficient)
  (Grouping.ofPairs pairs).map fun (rest, coefficients) => (rest, coefficients.foldl (· + ·) 0)

def likeBases (operands : List (Expr κ)) : List (Expr κ × List (Expr κ)) :=
  Grouping.ofPairs (operands.map baseAndExponent)

/-- A like term with its coefficient in front; none if the coefficient is zero. -/
def scaledTerm? (multiply : List (Expr κ) → Expr κ) (term : Expr κ × κ) : Option (Expr κ) :=
  if Scalar.isZero term.2 then none
  else if Scalar.isOne term.2 then some term.1
  else some (multiply [number term.2, term.1])

def ofTerms : List (Expr κ) → Expr κ
  | [] => zero
  | [term] => term
  | terms => add (arrange terms)

/-- The operands of a power that came out as a product, and else the power itself. -/
def pieces : Expr κ → List (Expr κ)
  | mul operands => operands
  | power => [power]

def ofFactors (coefficient : κ) (operands : List (Expr κ)) : Expr κ :=
  if Scalar.isZero coefficient then zero
  else
    match arrange operands, Scalar.isOne coefficient with
    | [], _ => number coefficient
    | [factor], true => factor
    | sorted, true => mul sorted
    | sorted, false => mul (number coefficient :: sorted)

def foldedPower? (base exponent : Expr κ) : Option κ :=
  match base, exponent with
  | num b, num e => (Scalar.power b e).filter Scalar.isFinite
  | _, _ => none

mutual
def sumWith : Nat → List (Expr κ) → Expr κ
  | 0, terms => add terms
  | fuel + 1, terms =>
    let leaves := addendsOf terms
    let constant := (numbersIn leaves).foldl (· + ·) 0
    let collected := (likeTerms (symbolicIn leaves)).filterMap (scaledTerm? (productWith fuel))
    ofTerms (collected ++ (if Scalar.isZero constant then [] else [number constant]))
def productWith : Nat → List (Expr κ) → Expr κ
  | 0, operands => mul operands
  | fuel + 1, operands =>
    let leaves := factorsOf operands
    let coefficient := (numbersIn leaves).foldl (· * ·) 1
    if Scalar.isZero coefficient then zero
    else
      let powers := (likeBases (symbolicIn leaves)).map fun group =>
        powerWith fuel group.1 (sumWith fuel group.2)
      let parts := powers.flatMap pieces
      ofFactors ((numbersIn parts).foldl (· * ·) coefficient) (symbolicIn parts)
def powerWith : Nat → Expr κ → Expr κ → Expr κ
  | 0, base, exponent => pow base exponent
  | fuel + 1, base, exponent =>
    if exponent.isZero then one
    else if exponent.isOne then base
    else
      match foldedPower? base exponent with
      | some value => number value
      | none =>
        match exponent.asNumber?.bind Scalar.wholeExponent?, base with
        | some _, pow inner innerExponent =>
          powerWith fuel inner (productWith fuel [innerExponent, exponent])
        | some _, mul operands =>
          productWith fuel (operands.map fun factor => powerWith fuel factor exponent)
        | _, _ => if base.isOne then one else pow base exponent
end

def fuelFor (nesting : Nat) : Nat := 4 * nesting + 16

def sum (terms : List (Expr κ)) : Expr κ := sumWith (fuelFor (nestingOf terms)) terms

def product (operands : List (Expr κ)) : Expr κ :=
  productWith (fuelFor (nestingOf operands)) operands

def power (base exponent : Expr κ) : Expr κ :=
  powerWith (fuelFor (max base.nesting exponent.nesting)) base exponent

def apply (function : Elementary) (argument : Expr κ) : Expr κ :=
  let folded := argument.asNumber?.bind fun value =>
    (Scalar.apply function value).filter Scalar.isFinite
  match folded with
  | some value => number value
  | none => call function argument

def angleOf (y x : Expr κ) : Expr κ :=
  match y, x with
  | num ordinate, num abscissa => number (Scalar.angle ordinate abscissa)
  | _, _ => angle y x

def choose (relation : Relation) (left right chosen otherwise : Expr κ) : Expr κ :=
  match left, right with
  | num l, num r => if relation.holds l r then chosen else otherwise
  | _, _ => if chosen == otherwise then chosen else cond relation left right chosen otherwise

def negate (expr : Expr κ) : Expr κ := product [number (-1), expr]

def powerOf (expr : Expr κ) (exponent : Int) : Expr κ := power expr (integer exponent)

def reciprocal (expr : Expr κ) : Expr κ := power expr (number (-1))

def plus (left right : Expr κ) : Expr κ := sum [left, right]

def minus (left right : Expr κ) : Expr κ := sum [left, right.negate]

def times (left right : Expr κ) : Expr κ := product [left, right]

def dividedBy (left right : Expr κ) : Expr κ := product [left, right.reciprocal]

instance : Add (Expr κ) := ⟨plus⟩
instance : Sub (Expr κ) := ⟨minus⟩
instance : Mul (Expr κ) := ⟨times⟩
instance : Div (Expr κ) := ⟨dividedBy⟩
instance : Neg (Expr κ) := ⟨negate⟩

def sin (argument : Expr κ) : Expr κ := apply .sin argument

def cos (argument : Expr κ) : Expr κ := apply .cos argument

def squareRoot (argument : Expr κ) : Expr κ := apply .sqrt argument

def square (expr : Expr κ) : Expr κ := expr.powerOf 2

def rebuild (expr : Expr κ) (operands : List (Expr κ)) : Expr κ :=
  match expr, operands with
  | add _, _ => sum operands
  | mul _, _ => product operands
  | pow .., [base, exponent] => power base exponent
  | call function _, [argument] => apply function argument
  | angle .., [y, x] => angleOf y x
  | cond relation .., [left, right, chosen, otherwise] =>
    choose relation left right chosen otherwise
  | _, _ => expr

def mapChildren (change : Expr κ → Expr κ) (expr : Expr κ) : Expr κ :=
  expr.rebuild (expr.children.map change)

end Mechanism.Expr
