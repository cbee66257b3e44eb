/-!
What the library asks of the numbers it computes with.

All definitions are generic in the numbers, so the same program runs on binary floating point and
is reasoned about over exact reals. Operations that need not have a value (a power, an elementary
function) return an option; `isEqual` is the comparison of values, while `decEq` tells two
representations apart.

The elementary functions of one number and the comparisons of two numbers that expressions may
contain come with the words they are written with.
-/

namespace Mechanism

inductive Elementary where
  | sin | cos | tan | asin | acos | atan | sqrt | abs | sign | exp | ln
  deriving DecidableEq, Repr

namespace Elementary

def name : Elementary → String
  | sin => "sin"
  | cos => "cos"
  | tan => "tan"
  | asin => "asin"
  | acos => "acos"
  | atan => "atan"
  | sqrt => "sqrt"
  | abs => "abs"
  | sign => "sign"
  | exp => "exp"
  | ln => "ln"

def all : List Elementary :=
  [sin, cos, tan, asin, acos, atan, sqrt, abs, sign, exp, ln]

def ofName? (word : String) : Option Elementary :=
  all.find? fun function => function.name == word

theorem ofName?_name (function : Elementary) : ofName? function.name = some function := by
  cases function <;> decide

end Elementary

inductive Relation where
  | less | greater | equal
  deriving DecidableEq, Repr

namespace Relation

def mark : Relation → String
  | less => "<"
  | greater => ">"
  | equal => "=="

def ofMark? (word : String) : Option Relation :=
  [less, greater, equal].find? fun relation => relation.mark == word

theorem ofMark?_mark (relation : Relation) : ofMark? relation.mark = some relation := by
  cases relation <;> decide

end Relation

class Scalar (κ : Type) extends Zero κ, One κ, Add κ, Sub κ, Mul κ, Div κ, Neg κ where
  decEq : DecidableEq κ
  ofInt : Int → κ
  isLess : κ → κ → Bool
  isEqual : κ → κ → Bool
  isFinite : κ → Bool
  /-- The integer that a number is, when it may be used as a whole exponent. -/
  wholeExponent? : κ → Option Int
  power : κ → κ → Option κ
  apply : Elementary → κ → Option κ
  /-- The angle of the point with ordinate `y` and abscissa `x`. -/
  angle : (y x : κ) → κ
  squareRoot : κ → κ
  magnitude : κ → κ
  /-- The word by which a number enters a fingerprint. -/
  word : κ → UInt64

instance (priority := low) Scalar.instDecidableEq {κ : Type} [Scalar κ] : DecidableEq κ :=
  Scalar.decEq

namespace Scalar

variable {κ : Type} [Scalar κ]

def isZero (value : κ) : Bool := isEqual value 0

def isOne (value : κ) : Bool := isEqual value 1

def isNegative (value : κ) : Bool := isLess value 0

def unsigned (value : κ) : κ := if isZero value then 0 else value

def half : κ := 1 / ofInt 2

/-- Directions this close to an axis or a plane count as lying in it. -/
def alignmentTolerance : κ := 1 / ofInt (Nat.pow 10 12)

end Scalar

/-- The numbers that can be written, in the three forms that texts of the library use. -/
class ScalarText (κ : Type) where
  expression : κ → String
  full : κ → String
  /-- A number with one digit before the point and an exponent. -/
  scientific : κ → String

namespace Relation

variable {κ : Type} [Scalar κ]

def holds (relation : Relation) (left right : κ) : Bool :=
  match relation with
  | less => Scalar.isLess left right
  | greater => Scalar.isLess right left
  | equal => Scalar.isEqual left right

end Relation

end Mechanism
