import Ldgr.Base.BinaryFloat

/-! Half, single and double precision conversions of the canonical float encoding. -/

namespace Ldgr.Format.Cbor

open Ldgr.Base.BinaryFloat
open Float.Model (Format)

/-- IEEE half precision, the narrowest width the encoder writes. -/
abbrev binary16 : Format where
  mantissaBitsWithoutImplicit := 10
  exponentBits := 5

def asF64 (value : Float32) : Float :=
  .ofModel (.pack (convert .binary64 value.toModel.unpack))

def asF32 (value : Float) : Float32 :=
  .ofModel (.pack (convert .binary32 value.toModel.unpack))

def isSignNegative (value : Float) : Bool :=
  value.toBits.toNat.testBit 63

/-- `-0.0`, which has no canonical encoding. -/
def isNegativeZero (value : Float) : Bool :=
  isSignNegative value && value == 0.0

/-- Converts single-precision bits to half bits (round-to-nearest-even). -/
def f32BitsToF16 (bits : UInt32) : UInt16 :=
  let sign := (bits.toNat >>> 16) &&& 0x8000
  let exp := (bits.toNat >>> 23) &&& 0xff
  let mant := bits.toNat &&& 0x7fffff
  if exp = 0xff then
    -- Infinity and NaN keep their class; callers reject NaN upstream.
    UInt16.ofNat (sign ||| 0x7c00 ||| (if mant ≠ 0 then 1 else 0))
  else
    let exp16 : Int := (exp : Int) - 127 + 15
    if 0x1f ≤ exp16 then
      UInt16.ofNat (sign ||| 0x7c00)
    else if 0 < exp16 then
      let m16 := mant >>> 13
      let roundBit := (mant >>> 12) &&& 1
      let sticky := mant &&& 0x0fff
      if roundBit = 1 ∧ (sticky ≠ 0 ∨ m16 &&& 1 = 1) then
        if m16 + 1 = 0x400 then
          -- Mantissa overflow carries into the exponent field.
          UInt16.ofNat (sign ||| ((exp16 + 1).toNat <<< 10))
        else
          UInt16.ofNat (sign ||| (exp16.toNat <<< 10) ||| (m16 + 1))
      else
        UInt16.ofNat (sign ||| (exp16.toNat <<< 10) ||| m16)
    else
      let shift := (14 - exp16).toNat
      if 25 ≤ shift then
        UInt16.ofNat sign
      else
        let full := mant ||| 0x800000
        let m16 := full >>> shift
        let roundBit := (full >>> (shift - 1)) &&& 1
        let sticky := full &&& ((1 <<< (shift - 1)) - 1)
        if roundBit = 1 ∧ (sticky ≠ 0 ∨ m16 &&& 1 = 1) then
          UInt16.ofNat (sign ||| (m16 + 1))
        else
          UInt16.ofNat (sign ||| m16)

/-- Returns `2 ^ k` exactly, for `-24 ≤ k ≤ 15`. -/
def twoToPower (k : Int) : Float :=
  if 0 ≤ k then
    ((1 : UInt32) <<< UInt32.ofNat k.toNat).toFloat
  else
    1.0 / ((1 : UInt32) <<< UInt32.ofNat (-k).toNat).toFloat

/-- The magnitude of a half: zero or subnormal, infinite or not a number, or normal. -/
def f16Magnitude (bits : UInt16) : Float :=
  let exp := (bits.toNat >>> 10) &&& 0x1f
  let mant := (UInt16.ofNat (bits.toNat &&& 0x03ff)).toFloat
  if exp = 0 then
    mant * 1.0 / 16777216.0
  else if exp = 31 then
    if mant == 0.0 then Float.inf else Float.nan
  else
    (1.0 + mant / 1024.0) * twoToPower ((exp : Int) - 15)

def f16BitsToF64 (bits : UInt16) : Float :=
  let sign : Float := if bits.toNat &&& 0x8000 ≠ 0 then -1.0 else 1.0
  sign * f16Magnitude bits

def valueRoundTripsAsF16 (value : Float) : Option UInt16 :=
  let single := asF32 value
  if asF64 single != value then
    none
  else
    let halfBits := f32BitsToF16 single.toBits
    if f16BitsToF64 halfBits == value then some halfBits else none

end Ldgr.Format.Cbor
