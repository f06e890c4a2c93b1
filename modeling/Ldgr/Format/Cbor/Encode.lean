import Ldgr.Base.Bytes
import Ldgr.Format.Cbor.Float

/-! Canonical RFC 8949 core deterministic encoder of single items. -/

namespace Ldgr.Format

open Ldgr.Base

inductive CborError where
  | unexpectedEof
  | indefiniteLengthForbidden
  | nonCanonicalIntegerEncoding
  | nonCanonicalFloat
  | unsortedMapKeys
  | duplicateMapKey
  | invalidUtf8
  | unknownTag (tag : UInt64)
  | lengthOverflow
  | entryTooLarge (size : Nat)
  | depthLimitExceeded
  | unsupportedType (initial : UInt8)
  | trailingBytes
  | unsupportedVersion (version : UInt32)
  | malformedManifest (message : String)
  deriving DecidableEq, Repr

instance : ToString CborError where
  toString
    | .unexpectedEof => "unexpected end of CBOR buffer"
    | .indefiniteLengthForbidden => "indefinite length items forbidden in canonical CBOR"
    | .nonCanonicalIntegerEncoding => "integer not in shortest canonical representation"
    | .nonCanonicalFloat => "float is -0.0, NaN, or not minimal width in canonical CBOR"
    | .unsortedMapKeys => "map keys not sorted canonically"
    | .duplicateMapKey => "duplicate map key detected"
    | .invalidUtf8 => "invalid UTF-8 sequence in text string"
    | .unknownTag tag => "unknown or disallowed CBOR tag: " ++ toString tag
    | .lengthOverflow => "declared length exceeds remaining input"
    | .entryTooLarge size => "canonical entry exceeds the " ++ toString size ++ "-byte limit"
    | .depthLimitExceeded => "CBOR nesting depth exceeds the limit"
    | .unsupportedType initial =>
      "unsupported CBOR major type or value: 0x" ++ String.ofList (Nat.toDigits 16 initial.toNat)
    | .trailingBytes => "trailing unparsed bytes in CBOR buffer"
    | .unsupportedVersion version => "unsupported manifest format version: " ++ toString version
    | .malformedManifest message => "malformed manifest: " ++ message

namespace Cbor

/-- The first byte of an item: its major type above five bits of additional information. -/
def initialByte (kind additional : Nat) : UInt8 :=
  UInt8.ofNat (kind * 32 + additional)

def major (kind : Nat) (value : UInt64) : Bytes :=
  if value.toNat ≤ 23 then
    [initialByte kind value.toNat]
  else if value.toNat ≤ 0xff then
    initialByte kind 24 :: beBytes 1 value.toNat
  else if value.toNat ≤ 0xffff then
    initialByte kind 25 :: beBytes 2 value.toNat
  else if value.toNat ≤ 0xffffffff then
    initialByte kind 26 :: beBytes 4 value.toNat
  else
    initialByte kind 27 :: beBytes 8 value.toNat

def unsigned (value : UInt64) : Bytes :=
  major 0 value

def negative (value : UInt64) : Bytes :=
  major 1 value

def bytes (value : Bytes) : Bytes :=
  major 2 (UInt64.ofNat value.length) ++ value

def textBytes (value : String) : Bytes :=
  value.toUTF8.data.toList

def text (value : String) : Bytes :=
  major 3 (UInt64.ofNat (textBytes value).length) ++ textBytes value

def array (length : Nat) : Bytes :=
  major 4 (UInt64.ofNat length)

def map (length : Nat) : Bytes :=
  major 5 (UInt64.ofNat length)

def boolean (value : Bool) : Bytes :=
  if value then [0xf5] else [0xf4]

def null : Bytes :=
  [0xf6]

/-- Appends a float in minimal width that round-trips.

Callers reject `-0.0` and `NaN`. Prefers half, then single, then double; integer-valued floats
stay floats. -/
def encodeMinimalFloat (value : Float) : Bytes :=
  match valueRoundTripsAsF16 value with
  | some halfBits => 0xf9 :: beBytes 2 halfBits.toNat
  | none =>
    if asF64 (asF32 value) == value then
      0xfa :: beBytes 4 (asF32 value).toBits.toNat
    else
      0xfb :: beBytes 8 value.toBits.toNat

/-- Shorter keys first, then bytewise order. -/
def compareCanonicalKeys (left right : Bytes) : Ordering :=
  if left.length ≠ right.length then
    compare left.length right.length
  else
    compare left right

end Cbor

end Ldgr.Format
