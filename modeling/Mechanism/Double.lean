import Mechanism.Decimal.Style
import Mechanism.Scalar

/-!
Binary floating point of 64 bits as the numbers of the library.
-/

namespace Mechanism

namespace Double

def parts (value : Float) : Decimal.Parts := Decimal.Parts.ofWord value.toBits

def whole? (value : Float) : Option Int :=
  match parts value with
  | .finite number => number.whole?
  | _ => none

def wholeExponentLimit : Nat := Nat.pow 2 31 - 1

def wholeExponent? (value : Float) : Option Int :=
  (whole? value).filter fun exponent => exponent.natAbs ≤ wholeExponentLimit

def powerWith : Nat → Float → Nat → Float → Float
  | 0, _, _, result => result
  | fuel + 1, base, exponent, result =>
    let result := if exponent % 2 == 1 then result * base else result
    if exponent / 2 == 0 then result
    else powerWith fuel (base * base) (exponent / 2) result

/-- Repeated squaring, from the lowest binary digit of the exponent to the highest; a negative
exponent takes the reciprocal at the end. -/
def wholePower (base : Float) (exponent : Int) : Float :=
  let result := powerWith 64 base exponent.natAbs 1.0
  if exponent < 0 then 1.0 / result else result

def power (base exponent : Float) : Float :=
  match wholeExponent? exponent with
  | some whole => wholePower base whole
  | none => base.pow exponent

def apply : Elementary → Float → Float
  | .sin, value => value.sin
  | .cos, value => value.cos
  | .tan, value => value.tan
  | .asin, value => value.asin
  | .acos, value => value.acos
  | .atan, value => value.atan
  | .sqrt, value => value.sqrt
  | .abs, value => value.abs
  | .sign, value => if value > 0.0 then 1.0 else if value < 0.0 then -1.0 else 0.0
  | .exp, value => value.exp
  | .ln, value => value.log

instance : Scalar Float where
  zero := 0.0
  one := 1.0
  add := Float.add
  sub := Float.sub
  mul := Float.mul
  div := Float.div
  neg := Float.neg
  decEq := inferInstance
  ofInt := Float.ofInt
  isLess left right := decide (left < right)
  isEqual left right := left == right
  isFinite := Float.isFinite
  wholeExponent? := wholeExponent?
  power base exponent := some (power base exponent)
  apply function value := some (apply function value)
  angle := Float.atan2
  squareRoot := Float.sqrt
  magnitude := Float.abs
  word := Float.toBits

def plainLimit : Nat := Nat.pow 10 15

def expressionText (value : Float) : String :=
  match (whole? value).filter fun number => number.natAbs < plainLimit with
  | some number => toString number
  | none => Decimal.Style.short.render (parts value)

instance : ScalarText Float where
  expression := expressionText
  full value := Decimal.Style.full.render (parts value)
  scientific value := Decimal.Style.scientific.render (parts value)

end Double

end Mechanism
