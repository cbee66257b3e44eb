import Mechanism.Decimal.Shortest

/-!
How a decimal is laid out: with a point in its place, or with an exponent.
-/

namespace Mechanism.Decimal

structure Style where
  /-- The least and the greatest exponent of the leading digit that are written with the point
  in its place; no bound means any. -/
  least : Option Int
  greatest : Option Int
  /-- A whole number keeps the point and a zero after it. -/
  keepsPoint : Bool

namespace Style

/-- Digits with the point in its place, and an exponent when that would take many zeros. -/
def short : Style := ⟨some (-4), some 15, true⟩

def full : Style := ⟨none, none, false⟩

def scientific : Style := ⟨some 1, some 0, false⟩

def zeros (count : Nat) : String := String.ofList (List.replicate count '0')

def positional (style : Style) (digits : List Char) (point : Int) : String :=
  let length := digits.length
  if point ≤ 0 then
    "0." ++ zeros (-point).toNat ++ String.ofList digits
  else if length ≤ point then
    String.ofList digits ++ zeros (point - length).toNat ++ (if style.keepsPoint then ".0" else "")
  else
    String.ofList (digits.take point.toNat) ++ "." ++ String.ofList (digits.drop point.toNat)

def withExponent (digits : List Char) (leading : Int) : String :=
  let fraction := digits.drop 1
  String.ofList (digits.take 1) ++
    (if fraction.isEmpty then "" else "." ++ String.ofList fraction) ++
    "e" ++ toString leading

def renderDigits (style : Style) (decimal : Digits) : String :=
  let digits := Nat.toDigits 10 decimal.coefficient
  let leading := decimal.exponent + digits.length - 1
  let tooSmall := style.least.any fun least => leading < least
  let tooLarge := style.greatest.any fun greatest => greatest < leading
  if tooSmall || tooLarge then withExponent digits leading
  else style.positional digits (leading + 1)

def render (style : Style) : Parts → String
  | .finite number =>
    (if number.negative then "-" else "") ++
      style.renderDigits (shortest number.significand number.exponent)
  | .infinite negative => if negative then "-inf" else "inf"
  | .undefined => "NaN"

end Style

end Mechanism.Decimal
