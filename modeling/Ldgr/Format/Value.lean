import Ldgr.Format.Cbor.Items
import Ldgr.Format.Limits

/-! Bounded canonical CBOR values: bounded depth, item count and string size, sorted unique map
keys, no NaN or negative zero. -/

namespace Ldgr.Format

open Ldgr.Base Ldgr.Format.Cbor Reader

inductive CanonicalValue where
  | unsigned (value : UInt64)
  | negative (value : UInt64)
  | bytes (content : Bytes)
  | text (content : String)
  | array (items : List CanonicalValue)
  /-- Map entries in canonical-key order. -/
  | map (entries : List (CanonicalValue × CanonicalValue))
  | bool (value : Bool)
  | null
  /-- Never NaN or `-0.0`. -/
  | float (value : Float)

inductive ValueError where
  | boundsExceeded (message : String)
  | cbor (error : CborError)
  deriving DecidableEq, Repr

/-- The running totals of one canonical value. `depth` counts every visited value and is never
lowered on the way back up. -/
structure Budget where
  depth : Nat := 0
  items : Nat := 0
  deriving DecidableEq, Repr

namespace Budget

def visit (budget : Budget) : Except ValueError Budget :=
  if maxCanonicalValueDepth < budget.depth + 1 then
    .error (.boundsExceeded "nesting depth")
  else if maxCanonicalValueItems < budget.items + 1 then
    .error (.boundsExceeded "collection item count")
  else
    .ok { depth := budget.depth + 1, items := budget.items + 1 }

def collection (budget : Budget) (length : Nat) : Except ValueError Budget :=
  if maxCanonicalValueItems < budget.items + length then
    .error (.boundsExceeded "collection item count")
  else
    .ok { budget with items := budget.items + length }

def string (_budget : Budget) (length : Nat) : Except ValueError Unit :=
  if maxCanonicalValueStringBytes < length then
    .error (.boundsExceeded "string size")
  else
    .ok ()

end Budget

/-- What encoding one value does with the running budget. -/
abbrev ValueEncoder := Budget → Except ValueError (Bytes × Budget)

/-- Two neighbours of the sorted keys are equal. -/
def hasDuplicateKey : List (Bytes × ValueEncoder) → Bool
  | first :: second :: rest => first.1 == second.1 || hasDuplicateKey (second :: rest)
  | _ => false

def encodeSorted : List (Bytes × ValueEncoder) → ValueEncoder
  | [], budget => pure ([], budget)
  | (key, encodeValue) :: rest, budget => do
      let (value, budget) ← encodeValue budget
      let (out, budget) ← encodeSorted rest budget
      pure (key ++ value ++ out, budget)

namespace CanonicalValue

mutual

def encodeInto (value : CanonicalValue) (budget : Budget) : Except ValueError (Bytes × Budget) := do
  let budget ← budget.visit
  match value with
  | .unsigned value => pure (Cbor.unsigned value, budget)
  | .negative value => pure (Cbor.negative value, budget)
  | .bytes content => do
      budget.string content.length
      pure (Cbor.bytes content, budget)
  | .text content => do
      budget.string (textBytes content).length
      pure (Cbor.text content, budget)
  | .array items => do
      let budget ← budget.collection items.length
      let (out, budget) ← encodeItems items budget
      pure (Cbor.array items.length ++ out, budget)
  | .map entries => do
      let budget ← budget.collection entries.length
      let (keys, budget) ← encodeKeys entries budget
      -- Sorted by encoded key bytes, so duplicates are neighbours.
      let sorted := keys.insertionSort fun left right =>
        compareCanonicalKeys left.1 right.1 ≠ .gt
      if hasDuplicateKey sorted then
        throw (.boundsExceeded "duplicate map key")
      else
        let (out, budget) ← encodeSorted sorted budget
        pure (Cbor.map sorted.length ++ out, budget)
  | .bool value => pure (boolean value, budget)
  | .null => pure (Cbor.null, budget)
  | .float value =>
    if value.isNaN || isNegativeZero value then
      throw (.boundsExceeded "floats must not be NaN or negative zero")
    else
      pure (encodeMinimalFloat value, budget)

def encodeItems : List CanonicalValue → Budget → Except ValueError (Bytes × Budget)
  | [], budget => pure ([], budget)
  | item :: items, budget => do
      let (first, budget) ← encodeInto item budget
      let (rest, budget) ← encodeItems items budget
      pure (first ++ rest, budget)

/-- Encodes every key; the values wait until the keys are sorted. -/
def encodeKeys : List (CanonicalValue × CanonicalValue) → Budget →
    Except ValueError (List (Bytes × ValueEncoder) × Budget)
  | [], budget => pure ([], budget)
  | (key, value) :: entries, budget => do
      let (keyBytes, budget) ← encodeInto key budget
      let (rest, budget) ← encodeKeys entries budget
      pure ((keyBytes, encodeInto value) :: rest, budget)

end

def tryEncode (value : CanonicalValue) : Except ValueError Bytes := do
  let (out, _) ← encodeInto value {}
  pure out

end CanonicalValue

abbrev ValueReader (α : Type) := Reader UInt8 ValueError α

def readValues (read : Budget → ValueReader (CanonicalValue × Budget)) :
    Nat → Budget → ValueReader (List CanonicalValue × Budget)
  | 0, budget => pure ([], budget)
  | count + 1, budget => do
      let (value, budget) ← read budget
      let (values, budget) ← readValues read count budget
      pure (value :: values, budget)

/-- The raw bytes of each key must be greater than those of the key before it. -/
def checkKeyOrder (previous : Option Bytes) (key : Bytes) : Except ValueError Unit :=
  match previous with
  | none => .ok ()
  | some previous =>
    match compareCanonicalKeys previous key with
    | .gt => .error (.cbor .unsortedMapKeys)
    | .eq => .error (.cbor .duplicateMapKey)
    | .lt => .ok ()

def readEntries (read : Budget → ValueReader (CanonicalValue × Budget)) : Nat → Option Bytes → Budget →
      ValueReader (List (CanonicalValue × CanonicalValue) × Budget)
  | 0, _, budget => pure ([], budget)
  | count + 1, previous, budget => do
      let ((key, budget), rawKey) ← withConsumed (read budget)
      ofExcept (checkKeyOrder previous rawKey)
      let (value, budget) ← read budget
      let (entries, budget) ← readEntries read count (some rawKey) budget
      pure ((key, value) :: entries, budget)

/-- The rest of a value whose item has been read, with `read` for the members. -/
def readContents (read : Budget → ValueReader (CanonicalValue × Budget)) (budget : Budget) :
    Item → ValueReader (CanonicalValue × Budget)
  | .unsigned value => pure (.unsigned value, budget)
  | .negative value => pure (.negative value, budget)
  | .bytes content => do
      ofExcept (budget.string content.length)
      pure (.bytes content, budget)
  | .text content => do
      ofExcept (budget.string (textBytes content).length)
      pure (.text content, budget)
  | .array count => do
      let budget ← ofExcept (budget.collection count.toNat)
      let (items, budget) ← readValues read count.toNat budget
      pure (.array items, budget)
  | .map count => do
      let budget ← ofExcept (budget.collection count.toNat)
      let (entries, budget) ← readEntries read count.toNat none budget
      pure (.map entries, budget)
  | .bool value => pure (.bool value, budget)
  | .null => pure (.null, budget)
  | .float value =>
    if value.isNaN || isNegativeZero value then
      fail (.boundsExceeded "floats must not be NaN or negative zero")
    else
      pure (.float value, budget)

/-- Reads one canonical value. Nesting uses up the fuel no faster than `visit` counts, so at
`maxCanonicalValueDepth` the budget is exhausted as well and reports the same error. -/
def readValue : Nat → Budget → ValueReader (CanonicalValue × Budget)
  | 0, _ => fail (.boundsExceeded "nesting depth")
  | fuel + 1, budget => do
      let budget ← ofExcept budget.visit
      let item ← mapError .cbor readItem
      readContents (readValue fuel) budget item

def readCanonicalValue : ValueReader CanonicalValue := do
  let (value, _) ← readValue maxCanonicalValueDepth {}
  pure value

end Ldgr.Format
