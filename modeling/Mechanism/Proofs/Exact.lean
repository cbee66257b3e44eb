import Mathlib.Analysis.SpecialFunctions.Complex.Arg
import Mathlib.Analysis.SpecialFunctions.Pow.Real
import Mathlib.Analysis.SpecialFunctions.Trigonometric.Arctan
import Mathlib.Analysis.SpecialFunctions.Trigonometric.Inverse
import Mathlib.Data.Real.Sign
import Mechanism.Scalar

/-!
Exact numbers. A number system is exact when its operations are those of the real numbers: then an
expression can be given a real value, which need not exist everywhere.
-/

namespace Mechanism

/-- Zero has no negative powers, and a negative base has whole powers only. -/
def PowerDefined (base exponent : ℝ) : Prop :=
  (base = 0 → 0 ≤ exponent) ∧ (base < 0 → ∃ whole : ℤ, exponent = whole)

open Classical in
noncomputable def realPower (base exponent : ℝ) : Option ℝ :=
  if PowerDefined base exponent then some (base ^ exponent) else none

namespace Elementary

def DefinedAt : Elementary → ℝ → Prop
  | tan, value => Real.cos value ≠ 0
  | asin, value => -1 ≤ value ∧ value ≤ 1
  | acos, value => -1 ≤ value ∧ value ≤ 1
  | sqrt, value => 0 ≤ value
  | ln, value => 0 < value
  | _, _ => True

noncomputable def real : Elementary → ℝ → ℝ
  | sin => Real.sin
  | cos => Real.cos
  | tan => Real.tan
  | asin => Real.arcsin
  | acos => Real.arccos
  | atan => Real.arctan
  | sqrt => Real.sqrt
  | abs => fun value => |value|
  | sign => Real.sign
  | exp => Real.exp
  | ln => Real.log

open Classical in
noncomputable def realApply (function : Elementary) (value : ℝ) : Option ℝ :=
  if function.DefinedAt value then some (function.real value) else none

end Elementary

def Relation.Holds : Relation → ℝ → ℝ → Prop
  | less, left, right => left < right
  | greater, left, right => right < left
  | equal, left, right => left = right

noncomputable def realAngle (y x : ℝ) : ℝ := Complex.arg ⟨x, y⟩

/-- Numbers that are real numbers, with operations that are those of the real numbers. -/
class Exact (κ : Type) [Scalar κ] where
  real : κ → ℝ
  real_zero : real 0 = 0
  real_one : real 1 = 1
  real_add : ∀ left right : κ, real (left + right) = real left + real right
  real_mul : ∀ left right : κ, real (left * right) = real left * real right
  real_neg : ∀ value : κ, real (-value) = -real value
  real_ofInt : ∀ whole : Int, real (Scalar.ofInt whole) = whole
  isLess_iff : ∀ left right : κ, Scalar.isLess left right = true ↔ real left < real right
  isEqual_iff : ∀ left right : κ, Scalar.isEqual left right = true ↔ real left = real right
  real_whole : ∀ (value : κ) (whole : Int),
    Scalar.wholeExponent? value = some whole → real value = whole
  real_power : ∀ base exponent : κ,
    (Scalar.power base exponent).map real = realPower (real base) (real exponent)
  real_apply : ∀ (function : Elementary) (value : κ),
    (Scalar.apply function value).map real = function.realApply (real value)
  real_angle : ∀ y x : κ, real (Scalar.angle y x) = realAngle (real y) (real x)

structure RealNumber where
  value : ℝ

namespace RealNumber

open Classical in
noncomputable instance : Scalar RealNumber where
  zero := ⟨0⟩
  one := ⟨1⟩
  add left right := ⟨left.value + right.value⟩
  sub left right := ⟨left.value - right.value⟩
  mul left right := ⟨left.value * right.value⟩
  div left right := ⟨left.value / right.value⟩
  neg number := ⟨-number.value⟩
  decEq := fun _ _ => Classical.propDecidable _
  ofInt whole := ⟨whole⟩
  isLess left right := decide (left.value < right.value)
  isEqual left right := decide (left.value = right.value)
  isFinite _ := true
  wholeExponent? number :=
    if number.value = ⌊number.value⌋ then some ⌊number.value⌋ else none
  power base exponent := (realPower base.value exponent.value).map .mk
  apply function number := (function.realApply number.value).map .mk
  angle y x := ⟨realAngle y.value x.value⟩
  squareRoot number := ⟨Real.sqrt number.value⟩
  magnitude number := ⟨|number.value|⟩
  word _ := 0

noncomputable instance : Exact RealNumber where
  real := value
  real_zero := rfl
  real_one := rfl
  real_add _ _ := rfl
  real_mul _ _ := rfl
  real_neg _ := rfl
  real_ofInt _ := rfl
  isLess_iff _ _ := by simp [Scalar.isLess]
  isEqual_iff _ _ := by simp [Scalar.isEqual]
  real_whole number whole found := by
    simp only [Scalar.wholeExponent?] at found
    split at found
    · rename_i isWhole
      cases found
      exact isWhole
    · cases found
  real_power _ _ := by simp [Scalar.power, Function.comp_def]
  real_apply _ _ := by simp [Scalar.apply, Function.comp_def]
  real_angle _ _ := rfl

end RealNumber

theorem realPower_eq_some {base exponent result : ℝ} :
    realPower base exponent = some result ↔
      PowerDefined base exponent ∧ base ^ exponent = result := by
  unfold realPower
  split
  · rename_i defined
    simp [defined]
  · rename_i undefined
    simp [undefined]

theorem realPower_of_pos {base : ℝ} (positive : 0 < base) (exponent : ℝ) :
    realPower base exponent = some (base ^ exponent) :=
  realPower_eq_some.mpr
    ⟨⟨fun zero => absurd zero positive.ne', fun negative => absurd negative positive.not_gt⟩, rfl⟩

theorem realPower_zero (base : ℝ) : realPower base 0 = some 1 :=
  realPower_eq_some.mpr ⟨⟨fun _ => le_refl 0, fun _ => ⟨0, by simp⟩⟩, Real.rpow_zero base⟩

theorem realPower_one (base : ℝ) : realPower base 1 = some base :=
  realPower_eq_some.mpr ⟨⟨fun _ => zero_le_one, fun _ => ⟨1, by simp⟩⟩, Real.rpow_one base⟩

theorem one_realPower (exponent : ℝ) : realPower 1 exponent = some 1 :=
  realPower_eq_some.mpr
    ⟨⟨fun zero => absurd zero one_ne_zero, fun negative => absurd negative (by norm_num)⟩,
      Real.one_rpow exponent⟩

theorem realPower_add {base first second x y : ℝ} (left : realPower base first = some x)
    (right : realPower base second = some y) :
    realPower base (first + second) = some (x * y) := by
  rw [realPower_eq_some] at left right ⊢
  obtain ⟨⟨firstZero, firstNegative⟩, rfl⟩ := left
  obtain ⟨⟨secondZero, secondNegative⟩, rfl⟩ := right
  rcases lt_trichotomy base 0 with negative | zero | positive
  · obtain ⟨m, rfl⟩ := firstNegative negative
    obtain ⟨n, rfl⟩ := secondNegative negative
    refine ⟨⟨fun zero => absurd zero negative.ne, fun _ => ⟨m + n, by push_cast; rfl⟩⟩, ?_⟩
    rw [← Int.cast_add, Real.rpow_intCast, Real.rpow_intCast, Real.rpow_intCast,
      zpow_add₀ negative.ne]
  · have firstLower := firstZero zero
    have secondLower := secondZero zero
    refine ⟨⟨fun _ => add_nonneg firstLower secondLower,
      fun negative => absurd negative zero.not_lt⟩, ?_⟩
    rw [Real.rpow_add_of_nonneg zero.ge firstLower secondLower]
  · exact ⟨⟨fun zero => absurd zero positive.ne', fun negative => absurd negative positive.not_gt⟩,
      Real.rpow_add positive first second⟩

theorem realPower_whole {base result : ℝ} {whole : ℤ} :
    realPower base whole = some result ↔ (base = 0 → 0 ≤ whole) ∧ base ^ whole = result := by
  rw [realPower_eq_some, Real.rpow_intCast, PowerDefined]
  simp

theorem realPower_mul {base exponent inner result : ℝ} {whole : ℤ}
    (first : realPower base exponent = some inner) (second : realPower inner whole = some result) :
    realPower base (exponent * whole) = some result := by
  rw [realPower_whole] at second
  rw [realPower_eq_some] at first ⊢
  obtain ⟨⟨zeroCase, negativeCase⟩, rfl⟩ := first
  obtain ⟨nonnegative, rfl⟩ := second
  rcases lt_trichotomy base 0 with negative | zero | positive
  · obtain ⟨m, rfl⟩ := negativeCase negative
    refine ⟨⟨fun zero => absurd zero negative.ne, fun _ => ⟨m * whole, by push_cast; rfl⟩⟩, ?_⟩
    rw [← Int.cast_mul, Real.rpow_intCast, Real.rpow_intCast, zpow_mul]
  · subst zero
    have lower := zeroCase rfl
    refine ⟨⟨fun _ => ?_, fun negative => absurd negative (lt_irrefl 0)⟩, ?_⟩
    · rcases lower.eq_or_lt with trivial | raised
      · rw [← trivial, zero_mul]
      · have wholeLower : 0 ≤ whole := nonnegative (Real.zero_rpow raised.ne')
        exact mul_nonneg lower (by exact_mod_cast wholeLower)
    · rw [← Real.rpow_intCast, ← Real.rpow_mul (le_refl 0)]
  · refine ⟨⟨fun zero => absurd zero positive.ne', fun negative => absurd negative positive.not_gt⟩,
      ?_⟩
    rw [Real.rpow_mul positive.le, Real.rpow_intCast]

theorem realPower_prod {bases : List ℝ} {result : ℝ} {whole : ℤ}
    (power : realPower bases.prod whole = some result) :
    (∀ base ∈ bases, realPower base whole = some (base ^ whole)) ∧
      (bases.map (· ^ whole)).prod = result := by
  rw [realPower_whole] at power
  obtain ⟨nonnegative, rfl⟩ := power
  constructor
  · intro base member
    refine realPower_whole.mpr ⟨fun zero => nonnegative ?_, rfl⟩
    exact List.prod_eq_zero (zero ▸ member)
  · exact (List.prod_zpow).symm

end Mechanism
