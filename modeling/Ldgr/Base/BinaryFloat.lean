import Mathlib

/-! Exact conversions between binary floating-point formats.

A finite value in the canonical form of its format keeps its value when it is rounded to any format
that can represent it, so widening and narrowing back is the identity. -/

namespace Ldgr.Base.BinaryFloat

open Float.Model (Format totalExponent UnpackedFloat)
open Float.Model.UnpackedFloat ExtendedMantissa

/-- The exponent is the one the format assigns to the value `mantissa * 2 ^ exponent`. -/
structure Canonical (spec : Format) (mantissa : Nat) (exponent : Int) : Prop where
  pos : 0 < mantissa
  target : spec.targetExponent (totalExponent mantissa exponent) = exponent

def InRange (spec : Format) (exponent : Int) : Prop :=
  exponent + spec.exponentBias + spec.mantissaBitsWithoutImplicit + 1 < 2 ^ spec.exponentBits

/-- Rounds a value to `spec`, keeping zeros, infinities and not-a-number. -/
def convert (spec : Format) : UnpackedFloat → UnpackedFloat
  | .finite sign mantissa exponent _ => round spec sign mantissa exponent
  | special => special

theorem log2_mul_two_pow {mantissa : Nat} (pos : 0 < mantissa) (shift : Nat) :
    (mantissa * 2 ^ shift).log2 = mantissa.log2 + shift := by
  have scaled : 0 < mantissa * 2 ^ shift := Nat.mul_pos pos (Nat.two_pow_pos shift)
  rw [Nat.log2_eq_iff scaled.ne']
  have lower := Nat.log2_self_le pos.ne'
  have upper := Nat.lt_log2_self (n := mantissa)
  constructor
  · rw [pow_add]
    exact Nat.mul_le_mul_right _ lower
  · rw [show mantissa.log2 + shift + 1 = mantissa.log2 + 1 + shift by omega, pow_add]
    exact Nat.mul_lt_mul_of_pos_right upper (Nat.two_pow_pos shift)

theorem totalExponent_mul_two_pow {mantissa : Nat} (pos : 0 < mantissa) (exponent : Int) (shift : Nat) :
    totalExponent (mantissa * 2 ^ shift) (exponent - shift) = totalExponent mantissa exponent := by
  simp only [totalExponent, log2_mul_two_pow pos]
  push_cast
  omega

theorem shiftRight_mul_two_pow (mantissa shift : Nat) :
    (mk (mantissa * 2 ^ shift) false false) >>> shift =
      mk mantissa false false := by
  change Nat.repeat shiftRightOne shift _ = _
  induction shift generalizing mantissa with
  | zero => simp [Nat.repeat]
  | succ shift ih =>
    have regroup : mantissa * 2 ^ (shift + 1) = mantissa * 2 * 2 ^ shift := by ring
    rw [Nat.repeat, regroup, ih (mantissa * 2)]
    simp [shiftRightOne]

section Rounding

variable {spec : Format} {mantissa : Nat} {exponent : Int}

/-- Bits dropped by the shift to the target exponent are all zero, so nothing is rounded. -/
theorem roundWithAccuracy_exact (sign : Sign) (canonical : Canonical spec mantissa exponent) (shift : Nat) :
    roundWithAccuracy spec sign (mantissa * 2 ^ shift) (exponent - shift) .exact =
      .finite sign mantissa exponent canonical.pos := by
  have shifted (extra : Nat) : shiftToTargetExponent spec (mantissa * 2 ^ extra) (exponent - extra)
      .exact = (mk mantissa false false, exponent) := by
    have amount : (exponent - (exponent - (extra : Int))).toNat = extra := by omega
    simp only [shiftToTargetExponent, shiftToExponent, totalExponent_mul_two_pow canonical.pos,
      canonical.target, ofMantissaAndAccuracy, amount, shiftRight_mul_two_pow]
    simp
  have settled := shifted 0
  simp only [pow_zero, Nat.mul_one, Nat.cast_zero, sub_zero] at settled
  simp only [roundWithAccuracy, shifted shift, roundedMantissa,
    accuracy, Accuracy.roundToNearestEven, settled]
  simp [canonical.pos.ne']

theorem round_mul_two_pow (sign : Sign) (canonical : Canonical spec mantissa exponent) (shift : Nat) :
    UnpackedFloat.round spec sign (mantissa * 2 ^ shift) (exponent - shift) =
      .finite sign mantissa exponent canonical.pos := by
  have target := totalExponent_mul_two_pow canonical.pos exponent shift
  have amount : (exponent - (shift : Int) - exponent).toNat = 0 := by omega
  simp only [UnpackedFloat.round, target, canonical.target, decreaseExponent, amount]
  simpa using roundWithAccuracy_exact sign canonical shift

theorem round_of_mul_two_pow (sign : Sign) {shift : Nat}
    (canonical : Canonical spec (mantissa * 2 ^ shift) exponent) :
    UnpackedFloat.round spec sign mantissa (exponent + shift) =
      .finite sign (mantissa * 2 ^ shift) exponent canonical.pos := by
  have pos : 0 < mantissa := Nat.pos_of_mul_pos_right canonical.pos
  have target := totalExponent_mul_two_pow pos (exponent + shift) shift
  rw [add_sub_cancel_right] at target
  have amount : (exponent + (shift : Int) - exponent).toNat = shift := by omega
  simp only [UnpackedFloat.round, ← target, canonical.target, decreaseExponent, amount, Nat.shiftLeft_eq]
  simpa using roundWithAccuracy_exact sign canonical 0

end Rounding

section Packing

variable {spec : Format} {mantissa : Nat} {exponent : Int}

theorem canonical_normal (wide : mantissa.log2 = spec.mantissaBitsWithoutImplicit)
    (pos : 0 < mantissa) (least : spec.minExponent ≤ exponent) :
    Canonical spec mantissa exponent := by
  refine ⟨pos, ?_⟩
  simp only [Format.targetExponent, totalExponent, Format.mantissaBits, wide]
  push_cast
  omega

theorem canonical_subnormal (narrow : mantissa.log2 < spec.mantissaBitsWithoutImplicit)
    (pos : 0 < mantissa) : Canonical spec mantissa spec.minExponent := by
  refine ⟨pos, ?_⟩
  simp only [Format.targetExponent, totalExponent, Format.mantissaBits]
  push_cast
  omega

theorem Canonical.cases (canonical : Canonical spec mantissa exponent) :
    (mantissa.log2 = spec.mantissaBitsWithoutImplicit ∧ spec.minExponent ≤ exponent) ∨
      (mantissa.log2 < spec.mantissaBitsWithoutImplicit ∧ exponent = spec.minExponent) := by
  have target := canonical.target
  simp only [Format.targetExponent, totalExponent, Format.mantissaBits] at target
  push_cast at target
  omega

private theorem minExponent_eq (spec : Format) :
    spec.minExponent = 1 - spec.exponentBias - spec.mantissaBitsWithoutImplicit := by
  have positive : 1 ≤ 2 ^ (spec.exponentBits - 1) := Nat.one_le_two_pow
  simp only [Format.minExponent, Format.exponentBias, Format.mantissaBits]
  push_cast [Nat.cast_sub positive]
  ring

theorem log2_append_one {width : Nat} (bits : BitVec width) :
    ((1#1 ++ bits).toNat).log2 = width ∧ (1#1 ++ bits).toNat = 2 ^ width + bits.toNat := by
  have value : (1#1 ++ bits).toNat = 2 ^ width + bits.toNat := by
    have disjoint := Nat.two_pow_add_eq_or_of_lt bits.isLt 1
    rw [Nat.mul_one] at disjoint
    simp [BitVec.toNat_append, Nat.one_shiftLeft, disjoint]
  have small := bits.isLt
  refine ⟨?_, value⟩
  rw [value, Nat.log2_eq_iff (by have := Nat.two_pow_pos width; omega)]
  rw [pow_succ]
  omega

theorem unpack_finite {bits : BitVec spec.numBits} {sign : Sign} {pos : 0 < mantissa}
    (exponentField : 2 ≤ spec.exponentBits)
    (unpacked : unpack spec bits = .finite sign mantissa exponent pos) :
    Canonical spec mantissa exponent ∧ InRange spec exponent := by
  have field := (unpackExponent bits).isLt
  have wide : 2 ^ 2 ≤ 2 ^ spec.exponentBits := Nat.pow_le_pow_right (by decide) exponentField
  have castWide : ((2 ^ spec.exponentBits : Nat) : Int) = 2 ^ spec.exponentBits := by push_cast; rfl
  revert unpacked
  fun_cases unpack with
  | case1 | case2 => simp
  | case3 => simp
  | case4 mantissaVec exponentVec exponent' signVec sign' special zeroExponent nonzero =>
    simp only [finite.injEq, and_imp]
    rintro rfl rfl rfl
    have low : exponentVec.toNat = 0 := by rw [zeroExponent]; rfl
    have value : exponent' + 1 = spec.minExponent := by
      simp only [exponent', low, minExponent_eq]
      push_cast
      ring
    have narrow : mantissaVec.toNat.log2 < spec.mantissaBitsWithoutImplicit :=
      (Nat.log2_lt pos.ne').mpr mantissaVec.isLt
    refine ⟨value ▸ canonical_subnormal narrow pos, ?_⟩
    rw [value, InRange, minExponent_eq, ← castWide]
    push_cast
    omega
  | case5 mantissaVec exponentVec exponent' signVec sign' special nonzero =>
    simp only [finite.injEq, and_imp]
    rintro rfl rfl rfl
    have positive : 0 < exponentVec.toNat := 
      Nat.pos_of_ne_zero fun zero => nonzero (BitVec.eq_of_toNat_eq (by simpa using zero))
    have below : exponentVec.toNat + 1 < 2 ^ spec.exponentBits := by
      have notAll : exponentVec.toNat ≠ 2 ^ spec.exponentBits - 1 := by
        intro all
        apply special
        rw [BitVec.neg_one_eq_allOnes]
        exact BitVec.eq_of_toNat_eq (by simpa using all)
      have bound := exponentVec.isLt
      omega
    refine ⟨canonical_normal (log2_append_one mantissaVec).1 pos ?_, ?_⟩
    · rw [minExponent_eq]
      simp only [exponent']
      omega
    · simp only [InRange, exponent', ← castWide]
      push_cast
      omega

section Finite

variable (sign : Sign) (canonical : Canonical spec mantissa exponent) (inRange : InRange spec exponent)

include canonical

private theorem Canonical.minExponent_le : spec.minExponent ≤ exponent := by
  rcases canonical.cases with ⟨_, least⟩ | ⟨_, least⟩ <;> omega

include inRange

private theorem Canonical.biased_lt :
    (exponent + spec.exponentBias + spec.mantissaBitsWithoutImplicit).toNat + 1 < 2 ^ spec.exponentBits := by
  have castWide : ((2 ^ spec.exponentBits : Nat) : Int) = 2 ^ spec.exponentBits := by push_cast; rfl
  have least := canonical.minExponent_le
  rw [minExponent_eq] at least
  rw [InRange, ← castWide] at inRange
  omega

private theorem unpack_pack_normal (normal : mantissa.log2 = spec.mantissaBitsWithoutImplicit) :
    unpack spec (pack spec (.finite sign mantissa exponent canonical.pos)) =
      .finite sign mantissa exponent canonical.pos := by
  have fits := canonical.biased_lt inRange
  have least := canonical.minExponent_le
  rw [minExponent_eq] at least
  have lower := Nat.log2_self_le canonical.pos.ne'
  have upper := Nat.lt_log2_self (n := mantissa)
  rw [normal] at lower upper
  generalize biased : (exponent + spec.exponentBias + spec.mantissaBitsWithoutImplicit).toNat = field at fits
  have isNormal : mantissa.log2 + 1 = spec.mantissaBits := by
    rw [normal, Format.mantissaBits, Nat.add_comm]
  have fieldValue : (BitVec.ofNat spec.exponentBits field).toNat = field := by
    rw [BitVec.toNat_ofNat, Nat.mod_eq_of_lt (by omega)]
  have restored : (1#1 ++ BitVec.ofNat spec.mantissaBitsWithoutImplicit mantissa).toNat =
      mantissa := by
    rw [(log2_append_one _).2, BitVec.toNat_ofNat, Nat.mod_eq_sub_mod lower,
      Nat.mod_eq_of_lt (by rw [pow_succ] at upper; omega)]
    omega
  have notAll : BitVec.ofNat spec.exponentBits field ≠ -1#_ := by
    intro all
    have value := congrArg BitVec.toNat all
    rw [fieldValue, BitVec.neg_one_eq_allOnes, BitVec.toNat_allOnes] at value
    omega
  have notZero : BitVec.ofNat spec.exponentBits field ≠ 0#_ := by
    intro zero
    have value := congrArg BitVec.toNat zero
    rw [fieldValue] at value
    simp only [BitVec.toNat_ofNat, Nat.zero_mod] at value
    omega
  simp only [pack, biased, if_neg (Nat.not_le_of_lt fits), if_pos isNormal, unpack,
    unpackExponent_packComponents, unpackMantissa_packComponents, unpackSign_packComponents,
    Sign.ofBitVec_toBitVec, if_neg notAll, if_neg notZero, restored, fieldValue, finite.injEq,
    true_and]
  omega

private theorem unpack_pack_subnormal (subnormal : mantissa.log2 < spec.mantissaBitsWithoutImplicit)
    (smallest : exponent = spec.minExponent) :
    unpack spec (pack spec (.finite sign mantissa exponent canonical.pos)) =
      .finite sign mantissa exponent canonical.pos := by
  have fits := canonical.biased_lt inRange
  have isSubnormal : mantissa.log2 + 1 ≠ spec.mantissaBits := by
    rw [Format.mantissaBits]
    omega
  have small : mantissa < 2 ^ spec.mantissaBitsWithoutImplicit :=
    (Nat.log2_lt canonical.pos.ne').mp subnormal
  have restored : (BitVec.ofNat spec.mantissaBitsWithoutImplicit mantissa).toNat = mantissa := by
    rw [BitVec.toNat_ofNat, Nat.mod_eq_of_lt small]
  have notZero : BitVec.ofNat spec.mantissaBitsWithoutImplicit mantissa ≠ 0#_ := by
    intro zero
    have value := congrArg BitVec.toNat zero
    rw [restored] at value
    exact canonical.pos.ne' (by simpa using value)
  have notAll : BitVec.ofNat spec.exponentBits 0 ≠ -1#_ := by
    rw [ne_eq, BitVec.zero_eq_neg_one_iff]
    exact spec.he.ne'
  simp only [pack, if_neg (Nat.not_le_of_lt fits), if_neg isSubnormal, unpack,
    unpackExponent_packComponents, unpackMantissa_packComponents, unpackSign_packComponents,
    Sign.ofBitVec_toBitVec, if_neg notAll, if_true, dif_neg notZero, restored, finite.injEq,
    true_and, BitVec.toNat_ofNat, Nat.zero_mod]
  rw [smallest, minExponent_eq]
  push_cast
  ring

theorem unpack_pack_finite : unpack spec (pack spec (.finite sign mantissa exponent canonical.pos)) =
      .finite sign mantissa exponent canonical.pos := by
  rcases canonical.cases with ⟨normal, _⟩ | ⟨subnormal, smallest⟩
  · exact unpack_pack_normal sign canonical inRange normal
  · exact unpack_pack_subnormal sign canonical inRange subnormal smallest

end Finite

theorem unpack_pack_infinity (sign : Sign) : unpack spec (pack spec (.infinity sign)) = .infinity sign := by
  simp [pack, packedInfinity, unpack]

end Packing

theorem pack_unpack_number {spec : Format} {bits : BitVec spec.numBits} (exponentField : 2 ≤ spec.exponentBits)
    (number : (unpack spec (pack spec (unpack spec bits))).isNaN = false) :
    pack spec (unpack spec bits) = bits := by
  have packed := pack_unpack bits exponentField
  split at packed
  · rw [packed, unpack_packedNaN] at number
    cases number
  · exact packed

theorem toNat_packComponents (spec : Format) (sign : Sign) (exponent : BitVec spec.exponentBits)
    (mantissa : BitVec spec.mantissaBitsWithoutImplicit) :
    (packComponents spec sign exponent mantissa).toNat =
      (sign.toBitVec.toNat * 2 ^ spec.exponentBits + exponent.toNat) *
        2 ^ spec.mantissaBitsWithoutImplicit + mantissa.toNat := by
  rw [packComponents, BitVec.toNat_append, ← Nat.shiftLeft_add_eq_or_of_lt mantissa.isLt,
    BitVec.toNat_append, ← Nat.shiftLeft_add_eq_or_of_lt exponent.isLt, Nat.shiftLeft_eq,
    Nat.shiftLeft_eq]

/-! ## Widening -/

/-- Every finite value of `narrow`, subnormal ones included, is a normal value of `wide`. -/
structure Widens (narrow wide : Format) : Prop where
  mantissa : narrow.mantissaBitsWithoutImplicit ≤ wide.mantissaBitsWithoutImplicit
  least : wide.minExponent + wide.mantissaBitsWithoutImplicit ≤ narrow.minExponent
  greatest : (2 ^ narrow.exponentBits : Int) - narrow.exponentBias ≤ 2 ^ wide.exponentBits - wide.exponentBias

section Widening

variable {narrow wide : Format} {mantissa : Nat} {exponent : Int}

/-- The mantissa of a finite value after filling the wide format's mantissa field. -/
theorem Widens.canonical (widens : Widens narrow wide)
    (canonical : Canonical narrow mantissa exponent) (inRange : InRange narrow exponent) :
    let shift := wide.mantissaBitsWithoutImplicit - mantissa.log2
    Canonical wide (mantissa * 2 ^ shift) (exponent - shift) ∧ InRange wide (exponent - shift) := by
  intro shift
  have mantissaBound : mantissa.log2 ≤ narrow.mantissaBitsWithoutImplicit := by
    rcases canonical.cases with ⟨normal, _⟩ | ⟨subnormal, _⟩ <;> omega
  have least := canonical.minExponent_le
  have shiftValue : (shift : Int) = wide.mantissaBitsWithoutImplicit - mantissa.log2 :=
    Nat.cast_sub (mantissaBound.trans widens.mantissa)
  have widths := widens.mantissa
  have leasts := widens.least
  have greatest := widens.greatest
  refine ⟨canonical_normal ?_ (Nat.mul_pos canonical.pos (Nat.two_pow_pos _)) ?_, ?_⟩
  · rw [log2_mul_two_pow canonical.pos]
    omega
  · omega
  · rw [InRange] at inRange ⊢
    omega

theorem Widens.convert_finite (widens : Widens narrow wide) (sign : Sign)
    (canonical : Canonical narrow mantissa exponent) (inRange : InRange narrow exponent) :
    let shift := wide.mantissaBitsWithoutImplicit - mantissa.log2
    convert wide (.finite sign mantissa exponent canonical.pos) =
      .finite sign (mantissa * 2 ^ shift) (exponent - shift)
        (Nat.mul_pos canonical.pos (Nat.two_pow_pos shift)) := by
  intro shift
  obtain ⟨widened, _⟩ := widens.canonical canonical inRange
  have rounded := round_of_mul_two_pow sign widened
  rwa [sub_add_cancel] at rounded

theorem Widens.narrow_widen (widens : Widens narrow wide) (exponentField : 2 ≤ narrow.exponentBits)
    (bits : BitVec narrow.numBits) :
    convert narrow (unpack wide (pack wide (convert wide (unpack narrow bits)))) =
      unpack narrow bits := by
  cases unpacked : unpack narrow bits with
  | infinity sign => simp [convert, unpack_pack_infinity]
  | notANumber | zero sign => simp [convert, pack]
  | finite sign mantissa exponent pos =>
    obtain ⟨canonical, inRange⟩ := unpack_finite exponentField unpacked
    obtain ⟨widened, widenedRange⟩ := widens.canonical canonical inRange
    rw [widens.convert_finite sign canonical inRange, unpack_pack_finite sign widened widenedRange]
    exact round_mul_two_pow sign canonical _

theorem Widens.narrow_part {middle : Format} (inner : Widens narrow middle)
    (outer : Widens middle wide) (exponentField : 2 ≤ narrow.exponentBits)
    (bits : BitVec narrow.numBits) (widens : Widens narrow wide) :
    convert middle (unpack wide (pack wide (convert wide (unpack narrow bits)))) =
      convert middle (unpack narrow bits) := by
  cases unpacked : unpack narrow bits with
  | infinity sign => simp [convert, unpack_pack_infinity]
  | notANumber | zero sign => simp [convert, pack]
  | finite sign mantissa exponent pos =>
    obtain ⟨canonical, inRange⟩ := unpack_finite exponentField unpacked
    obtain ⟨widened, widenedRange⟩ := widens.canonical canonical inRange
    obtain ⟨middleForm, _⟩ := inner.canonical canonical inRange
    rw [widens.convert_finite sign canonical inRange, unpack_pack_finite sign widened widenedRange,
      inner.convert_finite sign canonical inRange]
    have widths := outer.mantissa
    have bound : mantissa.log2 ≤ middle.mantissaBitsWithoutImplicit := by
      have narrowBound := inner.mantissa
      rcases canonical.cases with ⟨normal, _⟩ | ⟨subnormal, _⟩ <;> omega
    have rounded := round_mul_two_pow sign middleForm
      (wide.mantissaBitsWithoutImplicit - middle.mantissaBitsWithoutImplicit)
    rw [mul_assoc, ← pow_add] at rounded
    have total : middle.mantissaBitsWithoutImplicit - mantissa.log2 +
        (wide.mantissaBitsWithoutImplicit - middle.mantissaBitsWithoutImplicit) =
        wide.mantissaBitsWithoutImplicit - mantissa.log2 := by omega
    rw [total, sub_sub, ← Nat.cast_add, total] at rounded
    exact rounded

theorem Widens.widen_twice {middle : Format} (inner : Widens narrow middle)
    (outer : Widens middle wide) (widens : Widens narrow wide)
    (exponentField : 2 ≤ narrow.exponentBits) (bits : BitVec narrow.numBits) :
    convert wide (unpack middle (pack middle (convert middle (unpack narrow bits)))) =
      convert wide (unpack narrow bits) := by
  cases unpacked : unpack narrow bits with
  | infinity sign => simp [convert, unpack_pack_infinity]
  | notANumber | zero sign => simp [convert, pack]
  | finite sign mantissa exponent pos =>
    obtain ⟨canonical, inRange⟩ := unpack_finite exponentField unpacked
    obtain ⟨middleForm, middleRange⟩ := inner.canonical canonical inRange
    rw [inner.convert_finite sign canonical inRange, unpack_pack_finite sign middleForm middleRange,
      outer.convert_finite sign middleForm middleRange,
      widens.convert_finite sign canonical inRange]
    have widths := outer.mantissa
    have bound : mantissa.log2 ≤ middle.mantissaBitsWithoutImplicit := by
      have narrowBound := inner.mantissa
      rcases canonical.cases with ⟨normal, _⟩ | ⟨subnormal, _⟩ <;> omega
    simp only [log2_mul_two_pow canonical.pos, mul_assoc, ← pow_add, finite.injEq, true_and]
    constructor
    · congr 2
      omega
    · omega

end Widening

/-! ## Scaling by a power of two -/

section Scaling

variable {spec : Format} {mantissa : Nat} {exponent scale : Int}

theorem mul_two_pow (sign scaleSign : Sign) (pos : 0 < mantissa)
    (scalePos : 0 < 2 ^ spec.mantissaBitsWithoutImplicit)
    (canonical : Canonical spec mantissa (exponent + scale + spec.mantissaBitsWithoutImplicit)) :
    mul spec (.finite sign mantissa exponent pos)
        (.finite scaleSign (2 ^ spec.mantissaBitsWithoutImplicit) scale scalePos) =
      .finite (sign * scaleSign) mantissa (exponent + scale + spec.mantissaBitsWithoutImplicit)
        pos := by
  have rounded := roundWithAccuracy_exact (sign * scaleSign) canonical spec.mantissaBitsWithoutImplicit
  rw [add_sub_cancel_right] at rounded
  exact rounded

theorem sign_mul_comm (left right : Sign) : left * right = right * left := by
  cases left <;> cases right <;> rfl

theorem unpacked_mul_comm (left right : UnpackedFloat) :
    mul spec left right = mul spec right left := by
  cases left <;> cases right <;>
    simp only [mul, sign_mul_comm, Nat.mul_comm, Int.add_comm]

theorem div_two_pow (sign scaleSign : Sign) (pos : 0 < mantissa)
    (scalePos : 0 < 2 ^ spec.mantissaBitsWithoutImplicit)
    (normal : mantissa.log2 = spec.mantissaBitsWithoutImplicit)
    (least : spec.minExponent < exponent - scale - spec.mantissaBitsWithoutImplicit) :
    div spec (.finite sign mantissa exponent pos)
        (.finite scaleSign (2 ^ spec.mantissaBitsWithoutImplicit) scale scalePos) =
      .finite (sign / scaleSign) mantissa (exponent - scale - spec.mantissaBitsWithoutImplicit)
        pos := by
  have target : min (exponent - scale) (spec.targetExponent (totalExponent mantissa exponent -
      totalExponent (2 ^ spec.mantissaBitsWithoutImplicit) scale)) =
      exponent - scale - spec.mantissaBitsWithoutImplicit - 1 := by
    simp only [Format.targetExponent, totalExponent, Format.mantissaBits, Nat.log2_two_pow, normal]
    push_cast
    omega
  have amount : (exponent - scale - (exponent - scale - spec.mantissaBitsWithoutImplicit - 1)).toNat =
      spec.mantissaBitsWithoutImplicit + 1 := by omega
  -- One bit more than the mantissa holds is computed, and that bit is zero.
  have shifted : mantissa <<< (spec.mantissaBitsWithoutImplicit + 1) =
      mantissa * 2 ^ 1 * 2 ^ spec.mantissaBitsWithoutImplicit := by
    rw [Nat.shiftLeft_eq, pow_succ]
    ring
  have rounded := roundWithAccuracy_exact (sign / scaleSign) (canonical_normal normal pos least.le) 1
  rw [Nat.cast_one] at rounded
  simp only [div, divCore, target, amount, shifted, Nat.mul_div_cancel _ scalePos,
    Nat.mul_mod_left, accuracyOfFraction, if_true, rounded]

end Scaling

end Ldgr.Base.BinaryFloat
