import Ldgr.Format.Cbor.Float

/-! The float conversions are exact where the canonical encoding relies on it. -/

namespace Ldgr.Format.Cbor

open Ldgr.Base.BinaryFloat
open Float.Model (Format UnpackedFloat totalExponent)
open Float.Model.UnpackedFloat

theorem binary16_widens_binary32 : Widens binary16 .binary32 := by
  constructor <;> decide

theorem binary32_widens_binary64 : Widens .binary32 .binary64 := by
  constructor <;> decide

theorem binary16_widens_binary64 : Widens binary16 .binary64 := by
  constructor <;> decide

/-! ## Single and double precision -/

@[simp] theorem asF64_unpack (value : Float32) : (asF64 value).toModel.unpack =
      UnpackedFloat.unpack .binary64 (UnpackedFloat.pack .binary64
        (convert .binary64 value.toModel.unpack)) := rfl

/-- Every single is a double, so the round trip through `f64` is exact. -/
theorem asF32_asF64 (value : Float32) : asF32 (asF64 value) = value := by
  have narrowed := binary32_widens_binary64.narrow_widen (by decide) value.toBits.toBitVec
  apply Float32.toBits_inj.mp
  apply UInt32.toBitVec_inj.mp
  change UnpackedFloat.pack .binary32 (convert .binary32 (asF64 value).toModel.unpack) = _
  rw [asF64_unpack]
  exact (congrArg (UnpackedFloat.pack .binary32) narrowed).trans (pack_unpack_of_valid value.toModel.valid)

variable {value : Float} {bits : UInt32} {mantissa : Nat}

theorem isNegativeZero_iff : isNegativeZero value = true ↔ value = -0.0 := by
  constructor
  · intro negative
    simp only [isNegativeZero, Bool.and_eq_true] at negative
    obtain ⟨sign, zero⟩ := negative
    obtain ⟨_, _, same | ⟨_, other⟩ | ⟨same, _⟩⟩ := Float.beq_iff_ne_nan_and_eq.mp zero
    · subst same
      exact absurd sign (by decide +kernel)
    · exact absurd other (by decide +kernel)
    · exact same.trans (by decide +kernel)
  · intro same
    subst same
    decide +kernel

theorem isNegativeZero32_iff {value : Float32} :
    (value.toBits.toNat.testBit 31 = true ∧ (value == 0.0) = true) ↔ value = -0.0 := by
  constructor
  · intro negative
    obtain ⟨sign, zero⟩ := negative
    obtain ⟨_, _, same | ⟨_, other⟩ | ⟨same, _⟩⟩ := Float32.beq_iff_ne_nan_and_eq.mp zero
    · subst same
      exact absurd sign (by decide +kernel)
    · exact absurd other (by decide +kernel)
    · exact same.trans (by decide +kernel)
  · intro same
    subst same
    decide +kernel

/-- Floats with a canonical encoding. -/
structure CanonicalFloat (value : Float) : Prop where
  number : value.isNaN = false
  notNegativeZero : isNegativeZero value = false

/-- A value that compares equal to a canonical float is that float, unless it is `-0.0`. -/
theorem CanonicalFloat.eq_of_beq {value other : Float} (canonical : CanonicalFloat value)
    (equal : (other == value) = true) : other = value ∨ (value = 0.0 ∧ other = -0.0) := by
  obtain ⟨_, _, same | ⟨_, negative⟩ | ⟨negative, zero⟩⟩ := Float.beq_iff_ne_nan_and_eq.mp equal
  · exact .inl same
  · have isNegative : isNegativeZero value = true :=
      isNegativeZero_iff.mpr (negative.trans (by decide +kernel))
    rw [canonical.notNegativeZero] at isNegative
    cases isNegative
  · exact .inr ⟨zero.trans (by decide +kernel), negative.trans (by decide +kernel)⟩

theorem CanonicalFloat.beq_self (canonical : CanonicalFloat value) : (value == value) = true := by
  have number := canonical.number
  rw [Float.isNaN_eq_decide_eq_nan, decide_eq_false_iff_not] at number
  exact Float.beq_self_iff.mpr number

theorem CanonicalFloat.asF64_asF32 (canonical : CanonicalFloat value)
    (equal : (asF64 (asF32 value) == value) = true) : asF64 (asF32 value) = value := by
  rcases canonical.eq_of_beq equal with same | ⟨zero, negative⟩
  · exact same
  · subst zero
    exact absurd negative (by decide +kernel)

theorem toBits_ofBits {bits : UInt64} (number : (Float.ofBits bits).isNaN = false) :
    (Float.ofBits bits).toBits = bits :=
  UInt64.toBitVec_inj.mp (pack_unpack_number (by decide) number)

theorem toBits_ofBits32 (number : (Float32.ofBits bits).isNaN = false) : (Float32.ofBits bits).toBits = bits :=
  UInt32.toBitVec_inj.mp (pack_unpack_number (by decide) number)

theorem canonicalFloat_asF64 {value : Float32} (number : value.isNaN = false)
    (notNegativeZero : ¬(value.toBits.toNat.testBit 31 ∧ value == 0.0)) :
    CanonicalFloat (asF64 value) := by
  have recovered := asF32_asF64 value
  constructor
  · cases nan : (asF64 value).isNaN with
    | false => rfl
    | true =>
      rw [Float.isNaN_eq_decide_eq_nan, decide_eq_true_eq] at nan
      rw [nan] at recovered
      rw [← recovered] at number
      exact absurd number (by decide +kernel)
  · cases negative : isNegativeZero (asF64 value) with
    | false => rfl
    | true =>
      rw [isNegativeZero_iff.mp negative] at recovered
      refine absurd (isNegativeZero32_iff.mpr (recovered.symm.trans ?_)) notNegativeZero
      decide +kernel

/-! ## Half precision to double -/

theorem minExponent_binary64 : Format.binary64.minExponent = -1074 := rfl

theorem inRange_binary64 {exponent : Int} : InRange .binary64 exponent ↔ exponent < 972 := by
  change exponent + (1023 : Nat) + (52 : Nat) + 1 < 2048 ↔ _
  omega

section Scaling

variable {left right : Float} {sign scaleSign : Sign} {exponent scale : Int} {pos : 0 < mantissa}
  {scalePos : 0 < 2 ^ 52} (leftValue : left.toModel.unpack = .finite sign mantissa exponent pos)
  (rightValue : right.toModel.unpack = .finite scaleSign (2 ^ 52) scale scalePos)

include leftValue rightValue

theorem unpack_mul (canonical : Canonical .binary64 mantissa (exponent + scale + 52))
    (inRange : InRange .binary64 (exponent + scale + 52)) : (left * right).toModel.unpack =
      .finite (sign * scaleSign) mantissa (exponent + scale + 52) pos := by
  change UnpackedFloat.unpack .binary64 (UnpackedFloat.pack .binary64
    (UnpackedFloat.mul .binary64 left.toModel.unpack right.toModel.unpack)) = _
  rw [leftValue, rightValue, mul_two_pow sign scaleSign pos scalePos canonical]
  exact unpack_pack_finite _ canonical inRange

theorem unpack_div (normal : mantissa.log2 = 52) (least : Format.binary64.minExponent < exponent - scale - 52)
    (inRange : InRange .binary64 (exponent - scale - 52)) : (left / right).toModel.unpack =
      .finite (sign / scaleSign) mantissa (exponent - scale - 52) pos := by
  change UnpackedFloat.unpack .binary64 (UnpackedFloat.pack .binary64
    (UnpackedFloat.div .binary64 left.toModel.unpack right.toModel.unpack)) = _
  rw [leftValue, rightValue, div_two_pow sign scaleSign pos scalePos normal least]
  exact unpack_pack_finite _ (canonical_normal normal pos least.le) inRange

end Scaling

theorem ofNat_exact {value : Nat} (pos : 0 < value) (small : value < 2 ^ 53) :
    UnpackedFloat.ofNat .binary64 value =
        .finite .positive (value * 2 ^ (52 - value.log2)) (-(52 - value.log2 : Nat))
          (Nat.mul_pos pos (Nat.two_pow_pos _)) ∧
      (value * 2 ^ (52 - value.log2)).log2 = 52 := by
  have bound : value.log2 < 53 := (Nat.log2_lt pos.ne').mpr small
  have wide : (value * 2 ^ (52 - value.log2)).log2 = 52 := by
    rw [log2_mul_two_pow pos]
    omega
  have canonical : Canonical .binary64 (value * 2 ^ (52 - value.log2)) (-(52 - value.log2 : Nat)) := by
    refine canonical_normal wide (Nat.mul_pos pos (Nat.two_pow_pos _)) ?_
    rw [minExponent_binary64]
    omega
  have rounded := round_of_mul_two_pow .positive canonical
  rw [neg_add_cancel] at rounded
  have order : compare (value : Int) 0 = .gt := compare_gt_iff_gt.mpr (by omega)
  refine ⟨?_, wide⟩
  simp only [UnpackedFloat.ofNat, UnpackedFloat.ofInt, UnpackedFloat.normalize, order, Int.toNat_natCast, rounded]

theorem one_unpack : (1.0 : Float).toModel.unpack = .finite .positive (2 ^ 52) (-52) (by decide) := by
  rfl

theorem negOne_unpack : (-1.0 : Float).toModel.unpack = .finite .negative (2 ^ 52) (-52) (by decide) := by
  rfl

theorem twoPow24_unpack : (16777216.0 : Float).toModel.unpack =
    .finite .positive (2 ^ 52) (-28) (by decide) := by
  rfl

theorem twoPow10_unpack : (1024.0 : Float).toModel.unpack = .finite .positive (2 ^ 52) (-42) (by decide) := by
  rfl

theorem toFloat_unpack {value : UInt16} (pos : 0 < value.toNat) : value.toFloat.toModel.unpack =
      .finite .positive (value.toNat * 2 ^ (52 - value.toNat.log2))
        (-(52 - value.toNat.log2 : Nat)) (Nat.mul_pos pos (Nat.two_pow_pos _)) := by
  have small : value.toNat < 2 ^ 53 := by
    have bound := value.toNat_lt
    omega
  obtain ⟨exact, wide⟩ := ofNat_exact pos small
  change UnpackedFloat.unpack .binary64 (UnpackedFloat.pack .binary64
    (UnpackedFloat.ofNat .binary64 value.toNat)) = _
  rw [exact]
  apply unpack_pack_finite _ (canonical_normal wide (Nat.mul_pos pos (Nat.two_pow_pos _)) ?_)
  · rw [inRange_binary64]
    omega
  · rw [minExponent_binary64]
    omega

/-! The three magnitudes of `f16BitsToF64`, by the half's exponent field. -/

section Magnitude

variable {mant : UInt16} (pos : 0 < mant.toNat) (small : mant.toNat < 1024)

include small

private theorem subnormalMagnitude_unpack : (mant.toFloat * 1.0 / 16777216.0).toModel.unpack =
      .finite .positive (mant.toNat * 2 ^ (52 - mant.toNat.log2))
        (-24 - (52 - mant.toNat.log2 : Nat)) (Nat.mul_pos pos (Nat.two_pow_pos _)) := by
  obtain ⟨_, wide⟩ := ofNat_exact pos (by omega)
  have widePos := Nat.mul_pos pos (Nat.two_pow_pos (52 - mant.toNat.log2))
  have product := unpack_mul (toFloat_unpack pos) one_unpack
    (canonical_normal wide widePos (by rw [minExponent_binary64]; omega))
    (by rw [inRange_binary64]; omega)
  have quotient := unpack_div product twoPow24_unpack wide
    (by rw [minExponent_binary64]; omega) (by rw [inRange_binary64]; omega)
  rw [quotient]
  congr 1
  omega

private theorem fraction_unpack : (mant.toFloat / 1024.0).toModel.unpack =
      .finite .positive (mant.toNat * 2 ^ (52 - mant.toNat.log2))
        (-10 - (52 - mant.toNat.log2 : Nat)) (Nat.mul_pos pos (Nat.two_pow_pos _)) := by
  obtain ⟨_, wide⟩ := ofNat_exact pos (by omega)
  have quotient := unpack_div (toFloat_unpack pos) twoPow10_unpack wide
    (by rw [minExponent_binary64]; omega) (by rw [inRange_binary64]; omega)
  rw [quotient]
  congr 1
  omega

private theorem significand_log2 : ((1024 + mant.toNat) * 2 ^ 42).log2 = 52 := by
  rw [Nat.log2_eq_iff (by omega)]
  omega

private theorem significand_unpack : (1.0 + mant.toFloat / 1024.0).toModel.unpack =
      .finite .positive ((1024 + mant.toNat) * 2 ^ 42) (-52)
        (Nat.mul_pos (Nat.add_pos_left (Nat.succ_pos 1023) _) (Nat.two_pow_pos 42)) := by
  by_cases zero : mant.toNat = 0
  · have isZero : mant = 0 := UInt16.toNat.inj zero
    subst isZero
    rfl
  · have pos : 0 < mant.toNat := Nat.pos_of_ne_zero zero
    have bound : mant.toNat.log2 < 10 := (Nat.log2_lt zero).mpr small
    have wide := significand_log2 small
    have canonical : Canonical .binary64 ((1024 + mant.toNat) * 2 ^ 42) (-52) :=
      canonical_normal wide (by omega) (by rw [minExponent_binary64]; omega)
    obtain ⟨extra, shift⟩ : ∃ extra : Nat, 52 - mant.toNat.log2 = 42 + extra :=
      ⟨10 - mant.toNat.log2, by omega⟩
    have rounded := round_mul_two_pow .positive canonical extra
    have scaled : (2 ^ 52) <<< extra + mant.toNat * 2 ^ (42 + extra) =
        (1024 + mant.toNat) * 2 ^ 42 * 2 ^ extra := by
      rw [Nat.shiftLeft_eq, pow_add]
      ring
    have positive : 0 < (1024 + mant.toNat) * 2 ^ 42 * 2 ^ extra :=
      Nat.mul_pos canonical.pos (Nat.two_pow_pos extra)
    have order : compare (((1024 + mant.toNat) * 2 ^ 42 * 2 ^ extra : Nat) : Int) 0 = .gt :=
      compare_gt_iff_gt.mpr (by exact_mod_cast positive)
    have smaller : min (-52 : Int) (-10 - (42 + extra : Nat)) = -52 - extra := by omega
    have raise : (-52 - (-52 - (extra : Int))).toNat = extra := by omega
    have keep : (-10 - ((42 + extra : Nat) : Int) - (-52 - (extra : Int))).toNat = 0 := by omega
    change UnpackedFloat.unpack .binary64 (UnpackedFloat.pack .binary64
      (UnpackedFloat.add .binary64 (1.0 : Float).toModel.unpack (mant.toFloat / 1024.0).toModel.unpack)) = _
    rw [one_unpack, fraction_unpack pos small]
    simp only [shift, UnpackedFloat.add, smaller, decreaseExponent, raise, keep, Nat.shiftLeft_zero,
      Sign.apply, ← Nat.cast_add, scaled, UnpackedFloat.normalize, order, Int.toNat_natCast, rounded]
    exact unpack_pack_finite _ canonical (by rw [inRange_binary64]; omega)

omit small in
private theorem twoToPower_unpack {k : Int} (lower : -14 ≤ k) (upper : k ≤ 15) :
    (twoToPower k).toModel.unpack = .finite .positive (2 ^ 52) (k - 52) (by decide) := by
  interval_cases k <;> rfl

private theorem normalMagnitude_unpack {k : Int} (lower : -14 ≤ k) (upper : k ≤ 15) :
    ((1.0 + mant.toFloat / 1024.0) * twoToPower k).toModel.unpack =
      .finite .positive ((1024 + mant.toNat) * 2 ^ 42) (k - 52)
        (Nat.mul_pos (Nat.add_pos_left (Nat.succ_pos 1023) _) (Nat.two_pow_pos 42)) := by
  have product := unpack_mul (significand_unpack small) (twoToPower_unpack lower upper)
    (canonical_normal (significand_log2 small) (by omega) (by rw [minExponent_binary64]; omega))
    (by rw [inRange_binary64]; omega)
  rw [product]
  congr 1
  omega

end Magnitude

section Half

variable (bits : UInt16)

private def halfSign : Sign := Sign.ofBitVec (@unpackSign binary16 bits.toBitVec)

private theorem halfExponent :
    (@unpackExponent binary16 bits.toBitVec).toNat = (bits.toNat >>> 10) &&& 0x1f := by
  rw [unpackExponent_def, BitVec.extractLsb'_toNat]
  exact (Nat.and_two_pow_sub_one_eq_mod (bits.toNat >>> 10) 5).symm

private theorem halfMantissa : (@unpackMantissa binary16 bits.toBitVec).toNat = bits.toNat &&& 0x03ff := by
  rw [unpackMantissa_def, BitVec.extractLsb'_toNat]
  exact (Nat.and_two_pow_sub_one_eq_mod (bits.toNat >>> 0) 10).symm

private theorem halfSignBit : (@unpackSign binary16 bits.toBitVec).toNat = (bits.toNat.testBit 15).toNat := by
  rw [unpackSign_def, BitVec.extractLsb'_toNat, Nat.toNat_testBit, Nat.shiftRight_eq_div_pow]
  rfl

private theorem halfSign_unpack : (if bits.toNat &&& 0x8000 ≠ 0 then (-1.0 : Float) else 1.0).toModel.unpack =
      .finite (halfSign bits) (2 ^ 52) (-52) (by decide) := by
  have masked : bits.toNat &&& 0x8000 = (bits.toNat.testBit 15).toNat * 2 ^ 15 :=
    Nat.and_two_pow bits.toNat 15
  have signBit := halfSignBit bits
  cases set : bits.toNat.testBit 15 with
  | false =>
    have positive : halfSign bits = .positive := by
      rw [set] at signBit
      have zero : @unpackSign binary16 bits.toBitVec = 0#1 :=
        BitVec.eq_of_toNat_eq (by simpa using signBit)
      simp [halfSign, Sign.ofBitVec, zero]
    rw [masked, set, positive]
    exact one_unpack
  | true =>
    have negative : halfSign bits = .negative := by
      rw [set] at signBit
      have one : @unpackSign binary16 bits.toBitVec = 1#1 :=
        BitVec.eq_of_toNat_eq (by simpa using signBit)
      simp [halfSign, Sign.ofBitVec, one]
    rw [masked, set, negative]
    exact negOne_unpack

private theorem sign_mul_unpack {sign magnitude : Float} {s : Sign}
    (unit : sign.toModel.unpack = .finite s (2 ^ 52) (-52) (by decide)) {mantissa : Nat}
    {exponent : Int} {pos : 0 < mantissa}
    (value : magnitude.toModel.unpack = .finite .positive mantissa exponent pos) :
    (sign * magnitude).toModel.unpack = .finite s mantissa exponent pos := by
  obtain ⟨canonical, inRange⟩ := unpack_finite (by decide) value
  have same : exponent + -52 + (52 : Nat) = exponent := by omega
  have product := mul_two_pow .positive s pos (by decide) (same.symm ▸ canonical)
  change UnpackedFloat.unpack .binary64 (UnpackedFloat.pack .binary64
    (UnpackedFloat.mul .binary64 sign.toModel.unpack magnitude.toModel.unpack)) = _
  rw [unit, value, unpacked_mul_comm, product]
  have signs : .positive * s = s := by cases s <;> rfl
  simp only [signs, same]
  exact unpack_pack_finite s canonical inRange

private theorem sign_mul_special {sign magnitude : Float} {s : Sign}
    (unit : sign.toModel.unpack = .finite s (2 ^ 52) (-52) (by decide)) :
    (magnitude.toModel.unpack = .zero .positive → (sign * magnitude).toModel.unpack = .zero s) ∧
    (magnitude.toModel.unpack = .infinity .positive → (sign * magnitude).toModel.unpack = .infinity s) ∧
    (magnitude.toModel.unpack = .notANumber → (sign * magnitude).toModel.unpack = .notANumber) := by
  have signs : s * .positive = s := by cases s <;> rfl
  have unfolded : (sign * magnitude).toModel.unpack = UnpackedFloat.unpack .binary64
      (UnpackedFloat.pack .binary64
        (UnpackedFloat.mul .binary64 sign.toModel.unpack magnitude.toModel.unpack)) := rfl
  rw [unfolded, unit]
  refine ⟨?_, ?_, ?_⟩ <;> intro value <;> rw [value]
  · simp [UnpackedFloat.mul, UnpackedFloat.pack, signs]
  · simp [UnpackedFloat.mul, unpack_pack_infinity, signs]
  · simp [UnpackedFloat.mul, UnpackedFloat.pack]

private theorem halfMant_lt : bits.toNat &&& 0x03ff < 1024 := by
  have small := (@unpackMantissa binary16 bits.toBitVec).isLt
  rwa [halfMantissa] at small

private theorem halfMant_toNat : (UInt16.ofNat (bits.toNat &&& 0x03ff)).toNat = bits.toNat &&& 0x03ff :=
  UInt16.toNat_ofNat_of_lt ((halfMant_lt bits).trans (by decide))

/-- The fields of a half, read as the encoder's bit operations read them. -/
inductive HalfCase : UnpackedFloat → Prop
  | infinity (special : (bits.toNat >>> 10) &&& 0x1f = 31) (none : bits.toNat &&& 0x03ff = 0) :
      HalfCase (.infinity (halfSign bits))
  | notANumber (special : (bits.toNat >>> 10) &&& 0x1f = 31) (payload : bits.toNat &&& 0x03ff ≠ 0) :
      HalfCase .notANumber
  | zero (least : (bits.toNat >>> 10) &&& 0x1f = 0) (none : bits.toNat &&& 0x03ff = 0) :
      HalfCase (.zero (halfSign bits))
  | subnormal (least : (bits.toNat >>> 10) &&& 0x1f = 0) (pos : 0 < bits.toNat &&& 0x03ff) :
      HalfCase (.finite (halfSign bits) (bits.toNat &&& 0x03ff) (-24) pos)
  | normal (lower : 0 < (bits.toNat >>> 10) &&& 0x1f) (upper : (bits.toNat >>> 10) &&& 0x1f < 31)
      (pos : 0 < 1024 + (bits.toNat &&& 0x03ff)) :
      HalfCase (.finite (halfSign bits) (1024 + (bits.toNat &&& 0x03ff))
        (((bits.toNat >>> 10) &&& 0x1f : Nat) - 25) pos)

theorem halfCase : HalfCase bits (UnpackedFloat.unpack binary16 bits.toBitVec) := by
  have exponentField := halfExponent bits
  have mantissaField := halfMantissa bits
  have expSmall := (@unpackExponent binary16 bits.toBitVec).isLt
  fun_cases UnpackedFloat.unpack binary16 bits.toBitVec with
  | case1 mantissaVec exponentVec signVec signOf special none =>
    exact .infinity (exponentField.symm.trans (congrArg BitVec.toNat special))
      (mantissaField.symm.trans (congrArg BitVec.toNat none))
  | case2 mantissaVec exponentVec special payload =>
    refine .notANumber (exponentField.symm.trans (congrArg BitVec.toNat special)) fun none => ?_
    exact payload (BitVec.eq_of_toNat_eq (mantissaField.trans none))
  | case3 mantissaVec exponentVec signVec signOf special least none =>
    exact .zero (exponentField.symm.trans (congrArg BitVec.toNat least))
      (mantissaField.symm.trans (congrArg BitVec.toNat none))
  | case4 mantissaVec exponentVec exponent signVec signOf special least nonzero =>
    have zeroExponent := exponentField.symm.trans (congrArg BitVec.toNat least)
    have value : exponent + 1 = -24 := by
      simp only [exponent, exponentVec, exponentField, zeroExponent]
      rfl
    simp only [value, mantissaVec, mantissaField]
    exact .subnormal zeroExponent _
  | case5 mantissaVec exponentVec exponent signVec signOf special least =>
    have lower : 0 < (bits.toNat >>> 10) &&& 0x1f := by
      refine Nat.pos_of_ne_zero fun zero => least (BitVec.eq_of_toNat_eq ?_)
      exact exponentField.trans zero
    have notSpecial : (bits.toNat >>> 10) &&& 0x1f ≠ 31 := fun all =>
      special (BitVec.eq_of_toNat_eq (exponentField.trans all))
    have upper : (bits.toNat >>> 10) &&& 0x1f < 32 := by rwa [exponentField] at expSmall
    have value : exponent = (((bits.toNat >>> 10) &&& 0x1f : Nat) : Int) - 25 := by
      simp only [exponent, exponentVec, exponentField]
      rfl
    have leading : (1#1 ++ mantissaVec).toNat = 1024 + (bits.toNat &&& 0x03ff) := by
      rw [(log2_append_one mantissaVec).2, mantissaField]
      rfl
    simp only [value, leading]
    exact .normal lower (by omega) _

theorem f16BitsToF64_unpack : (f16BitsToF64 bits).toModel.unpack =
      convert .binary64 (UnpackedFloat.unpack binary16 bits.toBitVec) := by
  have unit := halfSign_unpack bits
  have mantSmall := halfMant_lt bits
  have mantValue := halfMant_toNat bits
  have zeroMant (none : bits.toNat &&& 0x03ff = 0) :
      UInt16.ofNat (bits.toNat &&& 0x03ff) = 0 := by rw [none]; rfl
  obtain ⟨onZero, onInfinity, onNaN⟩ := @sign_mul_special _ (f16Magnitude bits) _ unit
  have canonicalFields {sign : Sign} {mantissa : Nat} {exponent : Int} {pos : 0 < mantissa}
      (value : UnpackedFloat.unpack binary16 bits.toBitVec = .finite sign mantissa exponent pos) :=
    unpack_finite (by decide) value
  have fields := halfCase bits
  generalize UnpackedFloat.unpack binary16 bits.toBitVec = value at fields canonicalFields ⊢
  cases fields with
  | infinity special none =>
    apply onInfinity
    simp only [f16Magnitude, special, zeroMant none]
    rfl
  | notANumber special payload =>
    apply onNaN
    have notZero : ((UInt16.ofNat (bits.toNat &&& 0x03ff)).toFloat == 0.0) = false := by
      change UnpackedFloat.beq _ _ = false
      rw [toFloat_unpack (mantValue.symm ▸ Nat.pos_of_ne_zero payload)]
      rfl
    simp only [f16Magnitude, special, notZero, Nat.reduceEqDiff, if_false, if_true, Bool.false_eq_true]
    rfl
  | zero least none =>
    apply onZero
    simp only [f16Magnitude, least, zeroMant none]
    rfl
  | subnormal least pos =>
    obtain ⟨canonical, inRange⟩ := canonicalFields rfl
    have magnitude := subnormalMagnitude_unpack (mantValue.symm ▸ pos) (mantValue.symm ▸ mantSmall)
    simp only [mantValue] at magnitude
    rw [binary16_widens_binary64.convert_finite _ canonical inRange]
    apply sign_mul_unpack unit
    simp only [f16Magnitude, least, if_true]
    exact magnitude
  | normal lower upper pos =>
    obtain ⟨canonical, inRange⟩ := canonicalFields rfl
    have wide : (1024 + (bits.toNat &&& 0x03ff)).log2 = 10 := by
      rw [Nat.log2_eq_iff (by omega)]
      omega
    have magnitude := normalMagnitude_unpack (mantValue.symm ▸ mantSmall)
      (k := (((bits.toNat >>> 10) &&& 0x1f : Nat) : Int) - 15) (by omega) (by omega)
    simp only [mantValue] at magnitude
    rw [binary16_widens_binary64.convert_finite _ canonical inRange]
    simp only [wide]
    apply sign_mul_unpack unit
    simp only [f16Magnitude, lower.ne', upper.ne, if_false]
    rw [magnitude]
    congr 1
    omega

theorem f16BitsToF64_eq : f16BitsToF64 bits =
      .ofModel (.pack (convert .binary64 (UnpackedFloat.unpack binary16 bits.toBitVec))) := by
  apply Float.toBits_inj.mp
  apply UInt64.toBitVec_inj.mp
  rw [← f16BitsToF64_unpack]
  exact (pack_unpack_of_valid (f16BitsToF64 bits).toModel.valid).symm

/-- A half fits a single, so narrowing its double to `f32` loses nothing. -/
theorem asF32_f16BitsToF64 : asF32 (f16BitsToF64 bits) =
      .ofModel (.pack (convert .binary32 (UnpackedFloat.unpack binary16 bits.toBitVec))) := by
  rw [f16BitsToF64_eq]
  exact congrArg (fun value => Float32.ofModel (.pack value))
    (binary16_widens_binary32.narrow_part binary32_widens_binary64 (by decide) bits.toBitVec
      binary16_widens_binary64)

theorem asF64_asF32_f16BitsToF64 : asF64 (asF32 (f16BitsToF64 bits)) = f16BitsToF64 bits := by
  rw [asF32_f16BitsToF64, f16BitsToF64_eq]
  exact congrArg (fun value => Float.ofModel (.pack value))
    (binary16_widens_binary32.widen_twice binary32_widens_binary64 binary16_widens_binary64
      (by decide) bits.toBitVec)

end Half

/-! ## Single precision to half -/

private theorem singleFields {bits sign exponent mantissa : Nat} (signSmall : sign < 2)
    (exponentSmall : exponent < 256) (mantissaSmall : mantissa < 2 ^ 23)
    (value : bits = (sign * 2 ^ 8 + exponent) * 2 ^ 23 + mantissa) :
    (bits >>> 16) &&& 0x8000 = 2 ^ 15 * sign ∧ (bits >>> 23) &&& 0xff = exponent ∧
      bits &&& 0x7fffff = mantissa := by
  have signBits : (bits >>> 16) &&& 0x8000 = ((bits >>> 16).testBit 15).toNat * 2 ^ 15 :=
    Nat.and_two_pow _ 15
  have exponentBits : (bits >>> 23) &&& 0xff = (bits >>> 23) % 2 ^ 8 :=
    Nat.and_two_pow_sub_one_eq_mod _ 8
  have mantissaBits : bits &&& 0x7fffff = bits % 2 ^ 23 :=
    Nat.and_two_pow_sub_one_eq_mod _ 23
  rw [signBits, exponentBits, mantissaBits, Nat.toNat_testBit, Nat.shiftRight_eq_div_pow,
    Nat.shiftRight_eq_div_pow]
  omega

private theorem halfParts (bits : UInt16) : bits.toNat = 2 ^ 15 * (halfSign bits).toBitVec.toNat +
      (((bits.toNat >>> 10) &&& 0x1f) * 2 ^ 10 + (bits.toNat &&& 0x03ff)) := by
  have exponentBits : (bits.toNat >>> 10) &&& 0x1f = (bits.toNat >>> 10) % 2 ^ 5 :=
    Nat.and_two_pow_sub_one_eq_mod _ 5
  have mantissaBits : bits.toNat &&& 0x03ff = bits.toNat % 2 ^ 10 :=
    Nat.and_two_pow_sub_one_eq_mod _ 10
  have bound := bits.toNat_lt
  rw [halfSign, Sign.toBitVec_ofBitVec, halfSignBit, exponentBits, mantissaBits, Nat.toNat_testBit,
    Nat.shiftRight_eq_div_pow]
  omega

private theorem pack_binary32_normal (sign : Sign) {exponent : Int}
    (pos : 0 < mantissa) (wide : mantissa.log2 = 23) (lower : -149 ≤ exponent)
    (upper : exponent < 105) :
    (UnpackedFloat.pack .binary32 (.finite sign mantissa exponent pos)).toNat =
      (sign.toBitVec.toNat * 2 ^ 8 + (exponent + 150).toNat) * 2 ^ 23 + (mantissa - 2 ^ 23) := by
  have least := Nat.log2_self_le pos.ne'
  have greatest := Nat.lt_log2_self (n := mantissa)
  rw [wide] at least greatest
  have biased : (exponent + Format.binary32.exponentBias +
      Format.binary32.mantissaBitsWithoutImplicit).toNat = (exponent + 150).toNat := by
    change (exponent + (127 : Nat) + (23 : Nat)).toNat = _
    omega
  have fits : ¬2 ^ Format.binary32.exponentBits ≤ (exponent + 150).toNat + 1 := by
    change ¬256 ≤ _
    omega
  have isNormal : mantissa.log2 + 1 = Format.binary32.mantissaBits := by rw [wide]; rfl
  simp only [UnpackedFloat.pack, biased, if_neg fits, if_pos isNormal, toNat_packComponents, BitVec.toNat_ofNat]
  have exponentSmall : (exponent + 150).toNat % 2 ^ 8 = (exponent + 150).toNat :=
    Nat.mod_eq_of_lt (by omega)
  have mantissaLow : mantissa % 2 ^ 23 = mantissa - 2 ^ 23 := by
    rw [Nat.mod_eq_sub_mod least, Nat.mod_eq_of_lt (by omega)]
  rw [exponentSmall, mantissaLow]

private theorem signBit_lt (sign : Sign) : sign.toBitVec.toNat < 2 :=
  sign.toBitVec.isLt

private theorem sign_or {sign low : Nat} (small : low < 2 ^ 15) : 2 ^ 15 * sign ||| low = 2 ^ 15 * sign + low :=
  (Nat.two_pow_add_eq_or_of_lt small sign).symm

private theorem f32BitsToF16_normal {sign exp mant : Nat} (signSmall : sign < 2)
    (lower : 0 < exp) (upper : exp < 31) (small : mant < 1024)
    (value : bits.toNat = (sign * 2 ^ 8 + (exp + 112)) * 2 ^ 23 + mant * 2 ^ 13) :
    f32BitsToF16 bits = UInt16.ofNat (2 ^ 15 * sign + (exp * 2 ^ 10 + mant)) := by
  obtain ⟨signField, exponentField, mantissaField⟩ :=
    singleFields signSmall (by omega) (by omega) value
  have exponent16 : ((exp + 112 : Nat) : Int) - 127 + 15 = exp := by omega
  have noRound : (mant * 2 ^ 13) >>> 12 &&& 1 = 0 := by
    rw [Nat.and_one_is_mod, Nat.shiftRight_eq_div_pow]
    omega
  have kept : (mant * 2 ^ 13) >>> 13 = mant := by
    rw [Nat.shiftRight_eq_div_pow]
    omega
  have low : exp <<< 10 ||| mant = exp * 2 ^ 10 + mant := by
    rw [← Nat.shiftLeft_add_eq_or_of_lt small, Nat.shiftLeft_eq]
  simp only [f32BitsToF16, signField, exponentField, mantissaField, exponent16, noRound, kept]
  rw [if_neg (by omega), if_neg (by omega), if_pos (by omega), if_neg (by omega), Int.toNat_natCast,
    Nat.lor_assoc, low, sign_or (by omega)]

private theorem f32BitsToF16_subnormal {sign mant : Nat} (signSmall : sign < 2)
    (pos : 0 < mant) (small : mant < 1024)
    (value : bits.toNat = (sign * 2 ^ 8 + (103 + mant.log2)) * 2 ^ 23 +
      (mant * 2 ^ (23 - mant.log2) - 2 ^ 23)) :
    f32BitsToF16 bits = UInt16.ofNat (2 ^ 15 * sign + mant) := by
  have bound : mant.log2 < 10 := (Nat.log2_lt pos.ne').mpr small
  have wide : (mant * 2 ^ (23 - mant.log2)).log2 = 23 := by
    rw [log2_mul_two_pow pos]
    omega
  have least := Nat.log2_self_le (Nat.mul_pos pos (Nat.two_pow_pos (23 - mant.log2))).ne'
  have greatest := Nat.lt_log2_self (n := mant * 2 ^ (23 - mant.log2))
  rw [wide] at least greatest
  obtain ⟨signField, exponentField, mantissaField⟩ :=
    singleFields signSmall (by omega) (by omega) value
  have exponent16 : ((103 + mant.log2 : Nat) : Int) - 127 + 15 = mant.log2 - 9 := by omega
  have shift : (14 - ((mant.log2 : Int) - 9)).toNat = 23 - mant.log2 := by omega
  have full : (mant * 2 ^ (23 - mant.log2) - 2 ^ 23) ||| 0x800000 = mant * 2 ^ (23 - mant.log2) := by
    have small : mant * 2 ^ (23 - mant.log2) - 2 ^ 23 < 2 ^ 23 := by omega
    rw [Nat.lor_comm]
    exact (Nat.two_pow_add_eq_or_of_lt small 1).symm.trans (by omega)
  have kept : (mant * 2 ^ (23 - mant.log2)) >>> (23 - mant.log2) = mant := by
    rw [Nat.shiftRight_eq_div_pow, Nat.mul_div_cancel _ (Nat.two_pow_pos _)]
  have noRound : (mant * 2 ^ (23 - mant.log2)) >>> (23 - mant.log2 - 1) &&& 1 = 0 := by
    have split : mant * 2 ^ (23 - mant.log2) = mant * 2 * 2 ^ (23 - mant.log2 - 1) := by
      rw [mul_assoc, ← pow_succ']
      congr 2
      omega
    rw [split, Nat.shiftRight_eq_div_pow, Nat.mul_div_cancel _ (Nat.two_pow_pos _), Nat.and_one_is_mod]
    omega
  simp only [f32BitsToF16, signField, exponentField, mantissaField, exponent16, shift, full, noRound, kept]
  rw [if_neg (by omega), if_neg (by omega), if_neg (by omega), if_neg (by omega), if_neg (by omega),
    sign_or (by omega)]

theorem f32BitsToF16_widened (bits : UInt16)
    (isNumber : UnpackedFloat.unpack binary16 bits.toBitVec ≠ .notANumber) :
    f32BitsToF16 (asF32 (f16BitsToF64 bits)).toBits = bits := by
  have mantSmall := halfMant_lt bits
  have signSmall := signBit_lt (halfSign bits)
  have parts := halfParts bits
  have recover {value : Nat} (same : bits.toNat = value) : UInt16.ofNat value = bits := by
    rw [← same, UInt16.ofNat_toNat]
  have value : (asF32 (f16BitsToF64 bits)).toBits.toNat = (UnpackedFloat.pack .binary32
      (convert .binary32 (UnpackedFloat.unpack binary16 bits.toBitVec))).toNat := by
    rw [asF32_f16BitsToF64]
    rfl
  have canonicalFields {sign : Sign} {mantissa : Nat} {exponent : Int} {pos : 0 < mantissa}
      (value : UnpackedFloat.unpack binary16 bits.toBitVec = .finite sign mantissa exponent pos) :=
    unpack_finite (by decide) value
  have fields := halfCase bits
  generalize UnpackedFloat.unpack binary16 bits.toBitVec = half at *
  generalize (asF32 (f16BitsToF64 bits)).toBits = single at value ⊢
  cases fields with
  | infinity special none =>
    simp only [convert, UnpackedFloat.pack, packedInfinity, toNat_packComponents] at value
    obtain ⟨signField, exponentField, mantissaField⟩ :=
      singleFields signSmall (show 255 < 256 by omega) (show 0 < 2 ^ 23 by omega) value
    simp only [f32BitsToF16, signField, exponentField, mantissaField]
    rw [if_pos trivial, if_neg (by omega), Nat.or_zero, sign_or (by omega)]
    exact recover (by omega)
  | notANumber special payload => exact absurd rfl isNumber
  | zero least none =>
    simp only [convert, UnpackedFloat.pack, packedZero, toNat_packComponents] at value
    obtain ⟨signField, exponentField, mantissaField⟩ :=
      singleFields signSmall (show 0 < 256 by omega) (show 0 < 2 ^ 23 by omega) value
    simp only [f32BitsToF16, signField, exponentField, mantissaField]
    rw [if_neg (by omega), if_neg (by omega), if_neg (by omega), if_pos (by omega)]
    exact recover (by omega)
  | subnormal least pos =>
    obtain ⟨canonical, inRange⟩ := canonicalFields rfl
    have bound : (bits.toNat &&& 0x03ff).log2 < 10 := (Nat.log2_lt pos.ne').mpr mantSmall
    rw [binary16_widens_binary32.convert_finite _ canonical inRange] at value
    simp only at value
    rw [pack_binary32_normal _ _ (by rw [log2_mul_two_pow pos]; omega) (by omega) (by omega)] at value
    rw [f32BitsToF16_subnormal signSmall pos mantSmall (value.trans (by omega))]
    exact recover (by omega)
  | normal lower upper pos =>
    obtain ⟨canonical, inRange⟩ := canonicalFields rfl
    have wide : (1024 + (bits.toNat &&& 0x03ff)).log2 = 10 := by
      rw [Nat.log2_eq_iff (by omega)]
      omega
    rw [binary16_widens_binary32.convert_finite _ canonical inRange] at value
    simp only [wide] at value
    rw [pack_binary32_normal _ _ (by rw [log2_mul_two_pow pos, wide]) (by omega) (by omega)] at value
    rw [f32BitsToF16_normal signSmall lower upper mantSmall (value.trans (by omega))]
    exact recover (by omega)

/-! ## The half round trip -/

theorem isNaN_f16BitsToF64 (bits : UInt16) (number : (f16BitsToF64 bits).isNaN = false) :
    UnpackedFloat.unpack binary16 bits.toBitVec ≠ .notANumber := by
  intro nan
  have value := f16BitsToF64_unpack bits
  rw [nan] at value
  have isNaN : (f16BitsToF64 bits).toModel.unpack.isNaN = false := number
  rw [value] at isNaN
  cases isNaN

theorem valueRoundTripsAsF16_half {bits : UInt16} (canonical : CanonicalFloat (f16BitsToF64 bits)) :
    valueRoundTripsAsF16 (f16BitsToF64 bits) = some bits := by
  have half := f32BitsToF16_widened bits (isNaN_f16BitsToF64 bits canonical.number)
  simp [valueRoundTripsAsF16, asF64_asF32_f16BitsToF64, half, canonical.beq_self, bne]

theorem CanonicalFloat.of_half {bits : UInt16} (canonical : CanonicalFloat value)
    (half : valueRoundTripsAsF16 value = some bits) : f16BitsToF64 bits = value := by
  simp only [valueRoundTripsAsF16] at half
  split at half
  · cases half
  · split at half
    · cases half
      rcases canonical.eq_of_beq ‹_› with same | ⟨zero, negative⟩
      · exact same
      · subst zero
        exact absurd negative (by decide +kernel)
    · cases half

/-- The checks of the single-precision reader, on a value that fits single but not half. -/
theorem CanonicalFloat.of_single {single : Float32}
    (canonical : CanonicalFloat value) (narrowed : asF32 value = single)
    (same : asF64 single = value) (notHalf : valueRoundTripsAsF16 value = none) :
    single.isNaN = false ∧ ¬(single.toBits.toNat.testBit 31 ∧ single == 0.0) ∧
      (f16BitsToF64 (f32BitsToF16 single.toBits) == asF64 single) = false := by
  subst same
  refine ⟨?_, ?_, ?_⟩
  · cases nan : single.isNaN with
    | false => rfl
    | true =>
      rw [Float32.isNaN_eq_decide_eq_nan, decide_eq_true_eq] at nan
      subst nan
      exact absurd canonical.number (by decide +kernel)
  · intro negative
    rw [isNegativeZero32_iff] at negative
    subst negative
    exact absurd canonical.notNegativeZero (by decide +kernel)
  · cases fits : f16BitsToF64 (f32BitsToF16 single.toBits) == asF64 single with
    | false => rfl
    | true => simp [valueRoundTripsAsF16, narrowed, canonical.beq_self, fits, bne] at notHalf

theorem valueRoundTripsAsF16_single {value : Float32}
    (tooWide : (f16BitsToF64 (f32BitsToF16 value.toBits) == asF64 value) = false) :
    valueRoundTripsAsF16 (asF64 value) = none := by
  simp [valueRoundTripsAsF16, asF32_asF64, tooWide]

end Ldgr.Format.Cbor
