import Mechanism.Expr.Reading

/-!
Expressions as text. A sum shows a negative coefficient by a minus sign, and a product shows
negative powers as a quotient; parentheses stand where an operand binds less tightly than its
place asks for.
-/

namespace Mechanism.Expr

variable {κ : Type} [Scalar κ]

def extentAt (expr : Expr κ) (below : List Nat) : Nat :=
  match expr, below with
  | num _, _ => 1
  | atom _, _ => 1
  | add _, _ => total below
  | mul _, _ => total below
  | pow .., [base, exponent] => base * (1 + exponent)
  | _, _ => 1 + total below

/-- More than the extent of any operand, and no less than that of a sum, a product or a power that is
built anew of the operands. -/
def extent (expr : Expr κ) : Nat := fold extentAt expr

namespace Precedence

def none : Nat := 0
def sum : Nat := 1
def product : Nat := 2
def power : Nat := 3
def leaf : Nat := 4

end Precedence

def precedence : Expr κ → Nat
  | add _ => Precedence.sum
  | num value => if Scalar.isNegative value then Precedence.sum else Precedence.leaf
  | mul _ => Precedence.product
  | pow .. => Precedence.power
  | _ => Precedence.leaf

/-- A product as it is written: a number, the factors above the line and those below it. -/
structure Fraction (κ : Type) [Scalar κ] where
  coefficient : κ
  numerator : List (Expr κ)
  denominator : List (Expr κ)

def below? : Expr κ → Option (Expr κ)
  | pow base exponent =>
    if exponent.asNumber?.any Scalar.isNegative then some (power base exponent.negate) else none
  | _ => none

def Fraction.ofFactors (operands : List (Expr κ)) : Fraction κ where
  coefficient := (numbersIn operands).getLast?.getD 1
  numerator := (symbolicIn operands).filter fun factor => (below? factor).isNone
  denominator := operands.filterMap below?

def joined (separator : String) (parts : List String) : String :=
  String.intercalate separator parts

variable [ScalarText κ]

/-- The number in front of a numerator; a coefficient of one is not written, and of minus one
only the sign. -/
def coefficientText (coefficient : κ) (alone : Bool) : String :=
  if Scalar.isEqual coefficient (-1) && !alone then "-"
  else if !Scalar.isOne coefficient || alone then
    ScalarText.expression coefficient ++ (if alone then "" else "*")
  else ""

def textWith : Nat → Nat → Expr κ → String
  | 0, _, _ => ""
  | fuel + 1, place, expr =>
    let body :=
      match expr with
      | num value => ScalarText.expression value
      | atom symbol => symbol.text
      | add [] => ""
      | add (first :: rest) =>
        rest.foldl (fun written term =>
          let (coefficient, factor) := term.splitCoefficient
          if Scalar.isNegative coefficient then
            written ++ " - " ++
              textWith fuel Precedence.product (product [number (-coefficient), factor])
          else
            written ++ " + " ++ textWith fuel Precedence.product term)
          (textWith fuel Precedence.sum first)
      | mul operands =>
        let fraction := Fraction.ofFactors operands
        let upper := joined "*" (fraction.numerator.map (textWith fuel Precedence.product))
        let lower :=
          match fraction.denominator with
          | [] => ""
          | [factor] => "/" ++ textWith fuel Precedence.power factor
          | several => "/(" ++ joined "*" (several.map (textWith fuel Precedence.product)) ++ ")"
        coefficientText fraction.coefficient fraction.numerator.isEmpty ++ upper ++ lower
      | pow base exponent =>
        textWith fuel Precedence.leaf base ++ "^" ++ textWith fuel Precedence.leaf exponent
      | call function argument =>
        function.name ++ "(" ++ textWith fuel Precedence.none argument ++ ")"
      | angle y x =>
        "atan2(" ++ textWith fuel Precedence.none y ++ ", " ++
          textWith fuel Precedence.none x ++ ")"
      | cond relation left right chosen otherwise =>
        "if(" ++ textWith fuel Precedence.none left ++ " " ++ relation.mark ++ " " ++
          textWith fuel Precedence.none right ++ ", " ++ textWith fuel Precedence.none chosen ++
          ", " ++ textWith fuel Precedence.none otherwise ++ ")"
    if expr.precedence < place then "(" ++ body ++ ")" else body

def text (expr : Expr κ) : String := textWith (expr.extent + 1) Precedence.none expr

end Mechanism.Expr
