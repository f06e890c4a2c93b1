import Ldgr.Base.Word
import Ldgr.Format.Cbor.Items

/-! Canonical CBOR values: the tree decoder behind container headers, clocks and snapshots, and the
encoder of whole values. -/

namespace Ldgr.Format.Cbor

open Ldgr.Base Reader

def maxDepth : Nat := 128

def tagAllowlist : List UInt64 := []

/-- An in-memory CBOR data item; maps list their entries in canonical key order. -/
inductive CborValue where
  | unsigned (value : UInt64)
  | negative (value : UInt64)
  | bytes (content : Bytes)
  | text (content : String)
  | array (items : List CborValue)
  | map (entries : List (CborValue × CborValue))
  | tag (tag : UInt64) (inner : CborValue)
  | bool (value : Bool)
  | null
  | float (value : Float)

/-- Major type 7 after its initial byte. No simple value beyond booleans and null has a form. -/
def decodeSimple (initial : UInt8) : ItemReader CborValue :=
  match initial.toNat % 32 with
  | 20 => pure (.bool false)
  | 21 => pure (.bool true)
  | 22 => pure .null
  | 25 => do return .float (← readF16)
  | 26 => do return .float (← readF32)
  | 27 => do return .float (← readF64)
  | 24 => do
      let value ← next .unexpectedEof
      require (24 ≤ value.toNat) .nonCanonicalIntegerEncoding
      fail (.unsupportedType initial)
  | 31 => fail .indefiniteLengthForbidden
  | _ => fail (.unsupportedType initial)

def checkRawKey (previous : Option Bytes) (key : Bytes) : Except CborError Unit :=
  match previous with
  | none => .ok ()
  | some previous =>
    match compareCanonicalKeys previous key with
    | .gt => .error .unsortedMapKeys
    | .eq => .error .duplicateMapKey
    | .lt => .ok ()

def decodeEntries (read : ItemReader CborValue) : Nat → Option Bytes → ItemReader (List (CborValue × CborValue))
  | 0, _ => pure []
  | count + 1, previous => do
      let (key, rawKey) ← withConsumed read
      ofExcept (checkRawKey previous rawKey)
      let value ← read
      let entries ← decodeEntries read count (some rawKey)
      pure ((key, value) :: entries)

/-- Every other major type after its head, with `read` for the members. -/
def decodeBody (read : ItemReader CborValue) (initial : UInt8) (kind : Nat) (value : UInt64) :
    ItemReader CborValue :=
  match kind with
  | 0 => pure (.unsigned value)
  | 1 => pure (.negative value)
  | 2 => do
      let length ← checkedLen value
      let content ← take length .lengthOverflow
      pure (.bytes content)
  | 3 => do
      let length ← checkedLen value
      let content ← take length .lengthOverflow
      match String.fromUTF8? ⟨content.toArray⟩ with
      | some content => pure (.text content)
      | none => fail .invalidUtf8
  | 4 => do
      let count ← checkedLen value
      let items ← many read count
      pure (.array items)
  | 5 => do
      let count ← checkedLen value
      let entries ← decodeEntries read count none
      pure (.map entries)
  | 6 => do
      require (value ∈ tagAllowlist) (.unknownTag value)
      let inner ← read
      pure (.tag value inner)
  | _ => fail (.unsupportedType initial)

/-- Decodes one value that nests at most `levels` deep. -/
def decodeValue : Nat → ItemReader CborValue
  | 0 => fail .depthLimitExceeded
  | levels + 1 => do
      let initial ← peek .unexpectedEof
      if initial.toNat / 32 = 7 then do
        let _ ← next .unexpectedEof
        decodeSimple initial
      else do
        let (kind, value) ← decodeHeader
        decodeBody (decodeValue levels) initial kind value

def CborValue.fromCanonicalBytes (input : Bytes) : Except CborError CborValue :=
  match decodeValue (maxDepth + 1) input with
  | .error fault => .error fault
  | .ok (value, rest) => if rest.isEmpty then .ok value else .error .trailingBytes

def tag (tagNum : UInt64) : Bytes :=
  major 6 tagNum

/-- Two neighbours of the sorted entries have the same key bytes. -/
def hasEqualKeys : List (Bytes × Bytes) → Bool
  | first :: second :: rest => first.1 == second.1 || hasEqualKeys (second :: rest)
  | _ => false

namespace CborValue

mutual

def tryEncode : CborValue → Except CborError Bytes
  | .unsigned value => .ok (Cbor.unsigned value)
  | .negative value => .ok (Cbor.negative value)
  | .bytes content => .ok (Cbor.bytes content)
  | .text content => .ok (Cbor.text content)
  | .array items => do
      let out ← encodeItems items
      pure (Cbor.array items.length ++ out)
  | .map entries => do
      let encoded ← encodeEntries entries
      let sorted := encoded.insertionSort fun left right =>
        compareCanonicalKeys left.1 right.1 ≠ .gt
      if hasEqualKeys sorted then .error .duplicateMapKey
      else pure (Cbor.map sorted.length ++ sorted.flatMap fun entry => entry.1 ++ entry.2)
  | .tag tagNum inner =>
    if tagNum ∈ tagAllowlist then do
      let out ← tryEncode inner
      pure (Cbor.tag tagNum ++ out)
    else .error (.unknownTag tagNum)
  | .bool value => .ok (boolean value)
  | .null => .ok Cbor.null
  | .float value =>
    if value.isNaN then .error .nonCanonicalFloat
    else if isNegativeZero value then .error .nonCanonicalFloat
    else .ok (encodeMinimalFloat value)

def encodeItems : List CborValue → Except CborError Bytes
  | [] => .ok []
  | item :: items => do
      let first ← tryEncode item
      let rest ← encodeItems items
      pure (first ++ rest)

def encodeEntries : List (CborValue × CborValue) → Except CborError (List (Bytes × Bytes))
  | [] => .ok []
  | (key, value) :: entries => do
      let keyBytes ← tryEncode key
      let valueBytes ← tryEncode value
      let rest ← encodeEntries entries
      pure ((keyBytes, valueBytes) :: rest)

end

def toCanonicalBytes (value : CborValue) : Except CborError Bytes :=
  value.tryEncode

end CborValue

end Ldgr.Format.Cbor
