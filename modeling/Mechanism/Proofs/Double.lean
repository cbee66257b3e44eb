import Mathlib
import Mechanism.Double

/-!
Binary floating point of 64 bits, as far as folding needs its laws: sums, products and comparisons do
not see the signs of zeros, and a power with exponent zero or one is what folding takes it for.
-/

namespace Mechanism

namespace Double

open Float.Model (Format UnpackedFloat totalExponent)
open Float.Model.UnpackedFloat

def unpacked (value : Float) : UnpackedFloat := value.toModel.unpack

def packed (number : UnpackedFloat) : Float := .ofModel (.pack number)

theorem unpacked_zero : unpacked 0 = .zero .positive := rfl

theorem unpacked_one : unpacked 1 = .finite .positive (2 ^ 52) (-52) (by decide) := rfl

theorem toBitVec_ofBitVec (bit : BitVec 1) : (Sign.ofBitVec bit).toBitVec = bit := by
  revert bit
  decide

theorem eq_ofNat_toNat {width : Nat} (bits : BitVec width) : bits = .ofNat width bits.toNat := by
  rw [BitVec.ofNat_toNat, BitVec.setWidth_eq]

theorem toNat_implicit (fraction : BitVec 52) :
    (1#1 ++ fraction).toNat = 2 ^ 52 + fraction.toNat := by
  rw [BitVec.toNat_append, ← Nat.shiftLeft_add_eq_or_of_lt fraction.isLt]
  rfl

section

variable (word : BitVec Format.binary64.numBits)

def signOf : Sign := .ofBitVec (unpackSign word)

/-- A word says what its sign, its exponent field and its fraction say. -/
inductive Encodes : UnpackedFloat → Prop where
  | infinity (field : unpackExponent word = -1) (fraction : unpackMantissa word = 0) :
    Encodes (.infinity (signOf word))
  | notANumber (field : unpackExponent word = -1) (fraction : unpackMantissa word ≠ 0) :
    Encodes .notANumber
  | zero (field : unpackExponent word = 0) (fraction : unpackMantissa word = 0) :
    Encodes (.zero (signOf word))
  | subnormal (mantissa : Nat) (positive : 0 < mantissa) (field : unpackExponent word = 0)
    (fraction : unpackMantissa word = .ofNat 52 mantissa) (small : mantissa < 2 ^ 52) :
    Encodes (.finite (signOf word) mantissa (-1074) positive)
  | normal (mantissa place : Nat) (positive : 0 < mantissa)
    (field : unpackExponent word = .ofNat 11 place) (some : 0 < place) (few : place < 2047)
    (fraction : unpackMantissa word = .ofNat 52 mantissa) (large : 2 ^ 52 ≤ mantissa)
    (small : mantissa < 2 ^ 53) : Encodes (.finite (signOf word) mantissa (place - 1075) positive)

theorem packComponents_parts : packComponents .binary64 (signOf word) (unpackExponent word)
    (unpackMantissa word) = word := by
  simp only [packComponents, signOf, toBitVec_ofBitVec, unpackSign, unpackExponent, unpackMantissa,
    BitVec.extractLsb]
  ext index bound
  grind

theorem encodes_unpack : Encodes word (unpack .binary64 word) := by
  have fieldBound : (unpackExponent word).toNat < 2048 := (unpackExponent word).isLt
  have fractionBound : (unpackMantissa word).toNat < 2 ^ 52 := (unpackMantissa word).isLt
  rw [unpack]
  split
  · rename_i field
    split
    · rename_i fraction
      exact .infinity field fraction
    · rename_i fraction
      exact .notANumber field fraction
  · rename_i notOnes
    split
    · rename_i field
      split
      · rename_i fraction
        exact .zero field fraction
      · rename_i fraction
        have nothing : (unpackExponent word).toNat = 0 := by rw [field]; rfl
        rw [nothing]
        exact .subnormal _ _ field (eq_ofNat_toNat _) fractionBound
    · rename_i notZero
      have implicit := toNat_implicit (unpackMantissa word)
      have some : (unpackExponent word).toNat ≠ 0 := fun nothing =>
        notZero (BitVec.toNat_inj.mp nothing)
      have few : (unpackExponent word).toNat ≠ 2047 := fun all =>
        notOnes (BitVec.toNat_inj.mp all)
      refine .normal _ _ _ (eq_ofNat_toNat _) (by omega) (by omega) ?_ (by omega) (by omega)
      apply BitVec.toNat_inj.mp
      change _ = (1#1 ++ unpackMantissa word).toNat % 2 ^ 52
      omega

end

theorem pack_subnormal (sign : Sign) {mantissa : Nat} (positive : 0 < mantissa)
    (small : mantissa < 2 ^ 52) : pack .binary64 (.finite sign mantissa (-1074) positive) =
      packComponents .binary64 sign 0 (.ofNat 52 mantissa) := by
  have short : mantissa.log2 < 52 := (Nat.log2_lt (by omega)).mpr small
  rw [pack]
  dsimp only
  rw [if_neg (by decide), if_neg (by simp only [Format.mantissaBits]; omega)]
  rfl

theorem log2_normal {mantissa : Nat} (large : 2 ^ 52 ≤ mantissa) (small : mantissa < 2 ^ 53) :
    mantissa.log2 = 52 :=
  (Nat.log2_eq_iff (by omega)).mpr ⟨large, small⟩

theorem pack_normal (sign : Sign) {mantissa place : Nat} (positive : 0 < mantissa)
    (few : place < 2047) (large : 2 ^ 52 ≤ mantissa) (small : mantissa < 2 ^ 53) :
    pack .binary64 (.finite sign mantissa (place - 1075) positive) =
      packComponents .binary64 sign (.ofNat 11 place) (.ofNat 52 mantissa) := by
  have biased : ((place : Int) - 1075 + Format.binary64.exponentBias +
      Format.binary64.mantissaBitsWithoutImplicit).toNat = place := by
    have bias : Format.binary64.exponentBias = 1023 := rfl
    dsimp only
    omega
  rw [pack, biased]
  dsimp only
  rw [ if_neg (by omega), if_pos (by rw [log2_normal large small]; rfl)]

theorem pack_unpack {word : BitVec Format.binary64.numBits} (valid : Format.binary64.Valid word) :
    pack .binary64 (unpack .binary64 word) = word := by
  have whole := packComponents_parts word
  have encodes := encodes_unpack word
  generalize unpack .binary64 word = number at encodes
  cases encodes with
  | infinity field fraction => rwa [field, fraction] at whole
  | notANumber field fraction => exact (valid.eq_packedNaN field fraction).symm
  | zero field fraction => rwa [field, fraction] at whole
  | subnormal mantissa positive field fraction small =>
      rw [pack_subnormal _ positive small, ← fraction, ← field, whole]
  | normal mantissa place positive field _ few fraction large small =>
      rw [pack_normal _ positive few large small, ← fraction, ← field, whole]

theorem packed_unpacked (value : Float) : packed (unpacked value) = value := by
  obtain ⟨⟨bits, valid⟩⟩ := value
  have word : pack .binary64 (unpack .binary64 bits.toBitVec) = bits.toBitVec := pack_unpack valid
  simp only [packed, unpacked, Float.Model.pack, Float.Model.unpack, word]

theorem targetExponent_eq (total : Int) :
    Format.binary64.targetExponent total = max (total - 53) (-1074) := rfl

theorem shift_zeros (count mantissa : Nat) :
    count.repeat ExtendedMantissa.shiftRightOne ⟨2 ^ count * mantissa, false, false⟩ =
      ⟨mantissa, false, false⟩ := by
  induction count generalizing mantissa with
  | zero => rw [Nat.repeat, Nat.pow_zero, Nat.one_mul]
  | succ count ih =>
      rw [Nat.repeat, Nat.pow_succ, Nat.mul_assoc, ih, ExtendedMantissa.shiftRightOne]
      simp

theorem log2_shifted (count : Nat) {mantissa : Nat} (positive : 0 < mantissa) :
    (2 ^ count * mantissa).log2 = count + mantissa.log2 := by
  have shifted : 2 ^ count * mantissa ≠ 0 := Nat.mul_ne_zero (by simp) (by omega)
  have lower : 2 ^ mantissa.log2 ≤ mantissa := Nat.log2_self_le (by omega)
  have upper : mantissa < 2 ^ (mantissa.log2 + 1) := Nat.lt_log2_self
  refine (Nat.log2_eq_iff shifted).mpr ⟨?_, ?_⟩
  · rw [Nat.pow_add]
    exact Nat.mul_le_mul_left _ lower
  · rw [Nat.add_assoc, Nat.pow_add]
    exact Nat.mul_lt_mul_of_pos_left upper (Nat.two_pow_pos count)

theorem roundWithAccuracy_shifted (sign : Sign) {mantissa : Nat} {exponent : Int}
    (positive : 0 < mantissa)
    (target : Format.binary64.targetExponent (totalExponent mantissa exponent) = exponent) :
    roundWithAccuracy .binary64 sign (2 ^ 52 * mantissa) (-52 + exponent) .exact =
      .finite sign mantissa exponent positive := by
  have same : totalExponent (2 ^ 52 * mantissa) (-52 + exponent) =
      totalExponent mantissa exponent := by
    rw [totalExponent, totalExponent, log2_shifted 52 positive]
    omega
  have first : shiftToTargetExponent .binary64 (2 ^ 52 * mantissa) (-52 + exponent) .exact =
      (⟨mantissa, false, false⟩, exponent) := by
    have count : (exponent - (-52 + exponent)).toNat = 52 := by omega
    rw [shiftToTargetExponent, same, target, shiftToExponent, count]
    refine Prod.ext (shift_zeros 52 mantissa) ?_
    change -52 + exponent + 52 = exponent
    omega
  have second : shiftToTargetExponent .binary64 mantissa exponent .exact =
      (⟨mantissa, false, false⟩, exponent) := by
    rw [shiftToTargetExponent, target, shiftToExponent, Int.sub_self]
    exact Prod.ext rfl (Int.add_zero exponent)
  have rounded : (⟨mantissa, false, false⟩ : ExtendedMantissa).roundedMantissa = mantissa := rfl
  simp only [roundWithAccuracy, first, rounded, second]
  rw [dif_neg (by omega)]

theorem positive_mul (sign : Sign) : .positive * sign = sign := by
  cases sign <;> rfl

theorem mul_one_unpacked (value : Float) :
    UnpackedFloat.mul .binary64 (unpacked 1) (unpacked value) = unpacked value := by
  have encodes := encodes_unpack value.toModel.toBits.toBitVec
  change Encodes _ (unpacked value) at encodes
  rw [unpacked_one]
  generalize unpacked value = number at encodes
  cases encodes with
  | infinity => cases signOf _ <;> rfl
  | notANumber => rfl
  | zero => cases signOf _ <;> rfl
  | subnormal mantissa positive _ _ small =>
      have short : mantissa.log2 < 52 := (Nat.log2_lt (by omega)).mpr small
      rw [UnpackedFloat.mul, positive_mul]
      refine roundWithAccuracy_shifted _ positive ?_
      rw [targetExponent_eq, totalExponent]
      omega
  | normal mantissa place positive _ some few _ large small =>
      rw [UnpackedFloat.mul, positive_mul]
      refine roundWithAccuracy_shifted _ positive ?_
      rw [targetExponent_eq, totalExponent, log2_normal large small]
      omega

theorem one_mul (value : Float) : 1 * value = value := by
  change packed (UnpackedFloat.mul .binary64 (unpacked 1) (unpacked value)) = value
  rw [mul_one_unpacked, packed_unpacked]

inductive Alike : UnpackedFloat → UnpackedFloat → Prop where
  | refl (number : UnpackedFloat) : Alike number number
  | zeros (first second : Sign) : Alike (.zero first) (.zero second)

theorem isZero_iff (value : Float) :
    Scalar.isZero value = true ↔ ∃ sign, unpacked value = .zero sign := by
  change ((unpacked value).compare (unpacked 0) == some .eq) = true ↔ _
  rw [unpacked_zero]
  cases unpacked value with
  | infinity sign => cases sign <;> simp [UnpackedFloat.compare]
  | notANumber => simp [UnpackedFloat.compare]
  | zero sign => simp [UnpackedFloat.compare]
  | finite sign => cases sign <;> simp [UnpackedFloat.compare]

theorem alike_unsigned (value : Float) : Alike (unpacked (Scalar.unsigned value)) (unpacked value) := by
  unfold Scalar.unsigned
  split
  · rename_i zero
    obtain ⟨sign, same⟩ := (isZero_iff value).mp zero
    rw [same]
    exact .zeros .positive sign
  · exact .refl _

theorem unpacked_packed_zero (sign : Sign) : unpacked (packed (.zero sign)) = .zero sign := by
  cases sign <;> rfl

theorem unsigned_packed {left right : UnpackedFloat} (alike : Alike left right) :
    Scalar.unsigned (packed left) = Scalar.unsigned (packed right) := by
  cases alike with
  | refl => rfl
  | zeros first second =>
      rw [Scalar.unsigned, if_pos ((isZero_iff _).mpr ⟨first, unpacked_packed_zero first⟩),
        Scalar.unsigned, if_pos ((isZero_iff _).mpr ⟨second, unpacked_packed_zero second⟩)]

section

variable {left left' right right' : UnpackedFloat}

theorem Alike.add (first : Alike left left') (second : Alike right right') :
    Alike (UnpackedFloat.add .binary64 left right) (UnpackedFloat.add .binary64 left' right') := by
  cases first with
  | refl =>
      cases second with
      | refl => exact .refl _
      | zeros sign sign' =>
          cases left with
          | zero own => cases own <;> cases sign <;> cases sign' <;> exact .zeros _ _
          | _ => exact .refl _
  | zeros sign sign' =>
      cases second with
      | refl =>
          cases right with
          | zero own => cases own <;> cases sign <;> cases sign' <;> exact .zeros _ _
          | _ => exact .refl _
      | zeros other other' =>
          cases sign <;> cases sign' <;> cases other <;> cases other' <;> exact .zeros _ _

theorem Alike.mul (first : Alike left left') (second : Alike right right') :
    Alike (UnpackedFloat.mul .binary64 left right) (UnpackedFloat.mul .binary64 left' right') := by
  cases first with
  | refl =>
      cases second with
      | refl => exact .refl _
      | zeros =>
          cases left with
          | zero | finite => exact .zeros _ _
          | infinity | notANumber => exact .refl _
  | zeros =>
      cases second with
      | refl =>
          cases right with
          | zero | finite => exact .zeros _ _
          | infinity | notANumber => exact .refl _
      | zeros => exact .zeros _ _

theorem Alike.compare (first : Alike left left') (second : Alike right right') :
    left.compare right = left'.compare right' := by
  cases first with
  | refl =>
      cases second with
      | refl => rfl
      | zeros =>
          cases left with
          | infinity sign | finite sign => cases sign <;> rfl
          | zero | notANumber => rfl
  | zeros =>
      cases second with
      | refl =>
          cases right with
          | infinity sign | finite sign => cases sign <;> rfl
          | zero | notANumber => rfl
      | zeros => rfl

end

theorem holds_eq (relation : Relation) (left right : Float) : relation.holds left right =
    match relation with
    | .less => (unpacked left).compare (unpacked right) == some .lt
    | .greater => (unpacked right).compare (unpacked left) == some .lt
    | .equal => (unpacked left).compare (unpacked right) == some .eq := by
  cases relation
  · exact Bool.decide_eq_true.trans Bool.decide_eq_true
  · exact Bool.decide_eq_true.trans Bool.decide_eq_true
  · rfl

theorem unsigned_add (left right : Float) :
    Scalar.unsigned (Scalar.unsigned left + Scalar.unsigned right) = Scalar.unsigned (left + right) :=
  unsigned_packed ((alike_unsigned left).add (alike_unsigned right))

theorem unsigned_mul (left right : Float) :
    Scalar.unsigned (Scalar.unsigned left * Scalar.unsigned right) = Scalar.unsigned (left * right) :=
  unsigned_packed ((alike_unsigned left).mul (alike_unsigned right))

theorem holds_unsigned (relation : Relation) (left right : Float) :
    relation.holds (Scalar.unsigned left) (Scalar.unsigned right) = relation.holds left right := by
  rw [holds_eq, holds_eq, (alike_unsigned left).compare (alike_unsigned right),
    (alike_unsigned right).compare (alike_unsigned left)]

theorem eq_one {value : Float} (isOne : Scalar.isOne value = true) : value = 1 := by
  rw [← packed_unpacked value, ← packed_unpacked 1]
  apply congrArg packed
  change ((unpacked value).compare (unpacked 1) == some .eq) = true at isOne
  rw [unpacked_one] at isOne ⊢
  generalize unpacked value = number at isOne
  cases number with
  | infinity sign => cases sign <;> cases isOne
  | notANumber | zero => cases isOne
  | finite sign mantissa exponent =>
      cases sign with
      | negative => cases isOne
      | positive =>
          have both : exponent = -52 ∧ mantissa = 2 ^ 52 := by
            simpa [UnpackedFloat.compare] using isOne
          obtain ⟨rfl, rfl⟩ := both
          rfl

theorem wholeExponent?_digits : wholeExponent? 0 = some 0 ∧ wholeExponent? 1 = some 1 := by
  decide +kernel

theorem power_zero (base : Float) : power base 0 = 1 := by
  rw [power, wholeExponent?_digits.1]
  rfl

theorem power_one (base : Float) : power base 1 = base := by
  rw [power, wholeExponent?_digits.2]
  exact one_mul base

end Double

end Mechanism
