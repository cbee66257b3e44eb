/-!
The shortest decimal that reads back as a given binary number.

A finite binary number is an integer significand times a power of two. The decimals that round to
it fill an interval around it. Among the decimals of one digit, then two digits and so on, the
first grid that meets the interval is used, and on it the point nearest to the number.
-/

namespace Mechanism.Decimal

/-- A finite binary number: a sign and `significand * 2 ^ exponent`. -/
structure Binary where
  negative : Bool
  significand : Nat
  exponent : Int
  deriving DecidableEq, Repr

inductive Parts where
  | finite (number : Binary)
  | infinite (negative : Bool)
  | undefined
  deriving DecidableEq, Repr

/-- The parts of the 64-bit pattern of a number: a sign bit, eleven bits of exponent and
fifty-two bits of fraction. -/
def Parts.ofWord (word : UInt64) : Parts :=
  let bits := word.toNat
  let negative := bits / Nat.pow 2 63 == 1
  let field : Nat := bits / Nat.pow 2 52 % Nat.pow 2 11
  let fraction := bits % Nat.pow 2 52
  if field == 2047 then
    if fraction == 0 then .infinite negative else .undefined
  else if field == 0 then
    .finite ⟨negative, fraction, -1074⟩
  else
    .finite ⟨negative, Nat.pow 2 52 + fraction, Int.ofNat field - 1075⟩

def Binary.whole? (number : Binary) : Option Int :=
  let size? : Option Nat :=
    match number.exponent with
    | .ofNat shift => some (number.significand * Nat.pow 2 shift)
    | .negSucc shift =>
      if number.significand % Nat.pow 2 (shift + 1) == 0 then
        some (number.significand / Nat.pow 2 (shift + 1))
      else
        none
  size?.map fun size => if number.negative then -(size : Int) else size

/-- The value `coefficient * 10 ^ exponent`; the coefficient is zero or ends in another digit. -/
structure Digits where
  coefficient : Nat
  exponent : Int
  deriving DecidableEq, Repr

namespace Digits

def trimWith : Nat → Nat → Int → Digits
  | 0, coefficient, exponent => ⟨coefficient, exponent⟩
  | fuel + 1, coefficient, exponent =>
    if coefficient % 10 == 0 then trimWith fuel (coefficient / 10) (exponent + 1)
    else ⟨coefficient, exponent⟩

def trim (coefficient : Nat) (exponent : Int) : Digits :=
  if coefficient == 0 then ⟨0, 0⟩ else trimWith 20 coefficient exponent

end Digits

structure Quotient where
  numerator : Nat
  denominator : Nat

def Quotient.ofBinary (size : Nat) : Int → Quotient
  | .ofNat shift => ⟨size * Nat.pow 2 shift, 1⟩
  | .negSucc shift => ⟨size, Nat.pow 2 (shift + 1)⟩

def Quotient.scaleDown (quotient : Quotient) : Int → Quotient
  | .ofNat places => ⟨quotient.numerator, quotient.denominator * Nat.pow 10 places⟩
  | .negSucc places => ⟨quotient.numerator * Nat.pow 10 (places + 1), quotient.denominator⟩

def Quotient.lessEq (left right : Quotient) : Bool :=
  left.numerator * right.denominator ≤ right.numerator * left.denominator

/-- The largest exponent whose power of ten is no larger than `significand * 2 ^ exponent`. It is
one of three neighbours of the value that the binary logarithm gives. -/
def leadingExponent (significand : Nat) (exponent : Int) : Int :=
  let quotient := Quotient.ofBinary significand exponent
  let guess := Int.fdiv (((Nat.log2 significand : Int) + exponent) * 30103) 100000
  let reached := fun places : Int => Quotient.lessEq ⟨1, 1⟩ (quotient.scaleDown places)
  if reached (guess + 1) then guess + 1
  else if reached guess then guess
  else guess - 1

/-- The decimals that round to a number, in units of a quarter of its last binary place. -/
structure Rounding where
  lowest : Nat
  center : Nat
  highest : Nat
  exponent : Int
  /-- Whether the ends of the interval round to the number too. -/
  closed : Bool

/-- The lower neighbour of a power of two is nearer than the upper one. -/
def Rounding.ofSignificand (significand : Nat) (exponent : Int) : Rounding :=
  let below := if significand == Nat.pow 2 52 && exponent != -1074 then 1 else 2
  ⟨4 * significand - below, 4 * significand, 4 * significand + 2, exponent - 2,
    significand % 2 == 0⟩

def Rounding.admits (rounding : Rounding) (candidate : Nat) (places : Int) : Bool :=
  let scaled := fun size => (Quotient.ofBinary size rounding.exponent).scaleDown places
  let low := scaled rounding.lowest
  let high := scaled rounding.highest
  if rounding.closed then
    low.lessEq ⟨candidate, 1⟩ && Quotient.lessEq ⟨candidate, 1⟩ high
  else
    !Quotient.lessEq ⟨candidate, 1⟩ low && !high.lessEq ⟨candidate, 1⟩

/-- The point of the grid `10 ^ places` that rounds to the number and is nearest to it; of two
that are equally near, the larger. -/
def Rounding.onGrid? (rounding : Rounding) (places : Int) : Option Nat :=
  let exact := (Quotient.ofBinary rounding.center rounding.exponent).scaleDown places
  let lower := exact.numerator / exact.denominator
  let rest := exact.numerator % exact.denominator
  let lowerFits := rounding.admits lower places
  let upperFits := rounding.admits (lower + 1) places
  if lowerFits && (rest == 0 || !upperFits || 2 * rest < exact.denominator) then some lower
  else if upperFits then some (lower + 1)
  else none

def shortestWith (rounding : Rounding) (leading : Int) : Nat → Nat → Digits
  | 0, _ => ⟨0, 0⟩
  | fuel + 1, count =>
    let places := leading + 1 - count
    match rounding.onGrid? places with
    | some coefficient => Digits.trim coefficient places
    | none => shortestWith rounding leading fuel (count + 1)

def shortest (significand : Nat) (exponent : Int) : Digits :=
  if significand == 0 then ⟨0, 0⟩
  else
    shortestWith (Rounding.ofSignificand significand exponent)
      (leadingExponent significand exponent) 18 1

end Mechanism.Decimal
