import Ldgr.Base.Reader
import Ldgr.Format.Cbor.Encode

/-! Canonical CBOR item reader for bounded entry decoding.

Declared lengths are checked against the remaining input before any content is read. The reader
nests no items itself, so its depth counter is back at zero before every item and is left out. -/

namespace Ldgr.Format.Cbor

open Ldgr.Base Reader

abbrev ItemReader (α : Type) := Reader UInt8 CborError α

/-- One canonical CBOR item; arrays and maps are their heads with the declared count. -/
inductive Item where
  | unsigned (value : UInt64)
  | negative (value : UInt64)
  | bytes (content : Bytes)
  | text (content : String)
  | array (count : UInt64)
  | map (count : UInt64)
  | bool (value : Bool)
  | null
  | float (value : Float)

def Item.encode : Item → Bytes
  | .unsigned value => Cbor.unsigned value
  | .negative value => Cbor.negative value
  | .bytes content => Cbor.bytes content
  | .text content => Cbor.text content
  | .array count => major 4 count
  | .map count => major 5 count
  | .bool value => boolean value
  | .null => Cbor.null
  | .float value => encodeMinimalFloat value

/-- A `width`-byte argument, which the next shorter form must not be able to hold. -/
def readArgument (width shorterMax : Nat) : ItemReader Nat := do
  let raw ← take width .unexpectedEof
  require (shorterMax < beNat raw) .nonCanonicalIntegerEncoding
  pure (beNat raw)

def headerValue (initial : UInt8) : ItemReader Nat :=
  let additional := initial.toNat % 32
  if additional ≤ 23 then pure additional
  else if additional = 24 then readArgument 1 23
  else if additional = 25 then readArgument 2 0xff
  else if additional = 26 then readArgument 4 0xffff
  else if additional = 27 then readArgument 8 0xffffffff
  else if additional = 31 then fail .indefiniteLengthForbidden
  else fail (.unsupportedType initial)

def decodeHeader : ItemReader (Nat × UInt64) := do
  let initial ← next .unexpectedEof
  let value ← headerValue initial
  pure (initial.toNat / 32, UInt64.ofNat value)

def checkedLen (declared : UInt64) : ItemReader Nat := do
  let remaining ← remaining
  require (declared.toNat ≤ remaining) .lengthOverflow
  pure declared.toNat

def readF16 : ItemReader Float := do
  let raw ← take 2 .unexpectedEof
  let value := f16BitsToF64 (UInt16.ofNat (beNat raw))
  require (value.isNaN = false) .nonCanonicalFloat
  require (isNegativeZero value = false) .nonCanonicalFloat
  pure value

def readF32 : ItemReader Float := do
  let raw ← take 4 .unexpectedEof
  let value := Float32.ofBits (UInt32.ofNat (beNat raw))
  require (value.isNaN = false) .nonCanonicalFloat
  require (¬(value.toBits.toNat.testBit 31 ∧ value == 0.0)) .nonCanonicalFloat
  -- A single that fits in half is not minimal.
  require ((f16BitsToF64 (f32BitsToF16 value.toBits) == asF64 value) = false) .nonCanonicalFloat
  pure (asF64 value)

def readF64 : ItemReader Float := do
  let raw ← take 8 .unexpectedEof
  let value := Float.ofBits (UInt64.ofNat (beNat raw))
  require (value.isNaN = false) .nonCanonicalFloat
  require (isNegativeZero value = false) .nonCanonicalFloat
  -- A double that fits in single is not minimal.
  require ((asF64 (asF32 value) == value) = false) .nonCanonicalFloat
  pure value

/-- Major type 7 after its initial byte: booleans, null and floats.

The one-byte simple value (additional information 24) is returned as an unsigned integer. -/
def readSimple (initial : UInt8) : ItemReader Item :=
  match initial.toNat % 32 with
  | 20 => pure (.bool false)
  | 21 => pure (.bool true)
  | 22 => pure .null
  | 25 => do return .float (← readF16)
  | 26 => do return .float (← readF32)
  | 27 => do return .float (← readF64)
  | 24 => do
      let value ← next .unexpectedEof
      require (24 ≤ value.toNat) .nonCanonicalIntegerEncoding
      pure (.unsigned (UInt64.ofNat value.toNat))
  | 31 => fail .indefiniteLengthForbidden
  | _ => fail (.unsupportedType initial)

/-- Every other major type, after its head. -/
def readBody (initial : UInt8) (kind : Nat) (value : UInt64) : ItemReader Item :=
  match kind with
  | 0 => pure (.unsigned value)
  | 1 => pure (.negative value)
  | 2 => do
      let length ← checkedLen value
      let content ← take length .lengthOverflow
      pure (.bytes content)
  | 3 => do
      let length ← checkedLen value
      let content ← take length .lengthOverflow
      match String.fromUTF8? ⟨content.toArray⟩ with
      | some content => pure (.text content)
      | none => fail .invalidUtf8
  | 4 => do
      let _ ← checkedLen value
      pure (.array value)
  | 5 => do
      let _ ← checkedLen value
      pure (.map value)
  | _ => fail (.unsupportedType initial)

def readItem : ItemReader Item := do
  let initial ← peek .unexpectedEof
  if initial.toNat / 32 = 7 then do
    let _ ← next .unexpectedEof
    readSimple initial
  else do
    let (kind, value) ← decodeHeader
    readBody initial kind value

/-- Reads an item that `select` accepts. -/
def readKind {α : Type} (fault : CborError) (select : Item → Option α) : ItemReader α := do
  let item ← readItem
  match select item with
  | some value => pure value
  | none => fail fault

def readUnsigned : ItemReader UInt64 :=
  readKind (.unsupportedType 0) fun
    | .unsigned value => some value
    | _ => none

def readBytes : ItemReader Bytes :=
  readKind (.unsupportedType 0) fun
    | .bytes content => some content
    | _ => none

def readBool : ItemReader Bool :=
  readKind (.unsupportedType 0) fun
    | .bool value => some value
    | _ => none

def readArray : ItemReader Nat :=
  readKind (.unsupportedType 0) fun
    | .array count => some count.toNat
    | _ => none

end Ldgr.Format.Cbor
