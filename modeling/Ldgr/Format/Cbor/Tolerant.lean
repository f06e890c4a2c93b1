import Ldgr.Format.Cbor.ValueProperties

/-! The tolerant reader passes wide heads, indefinite lengths, unsorted maps, any tag and any float, and
reads what the canonical decoder accepts to the same value. -/

namespace Ldgr.Format.Cbor

open Ldgr.Base Reader

structure TolerantReader where
  maxDepth : Nat

/-- The argument of an item head without width checks; an indefinite length reads as zero. -/
def tolerantValue (initial : UInt8) : ItemReader Nat :=
  let additional := initial.toNat % 32
  let wide (width : Nat) : ItemReader Nat := do
    let raw ← take width .unexpectedEof
    pure (beNat raw)
  if additional ≤ 23 then pure additional
  else if additional = 24 then wide 1
  else if additional = 25 then wide 2
  else if additional = 26 then wide 4
  else if additional = 27 then wide 8
  else if additional = 31 then pure 0
  else fail (.unsupportedType initial)

def readTolerantHeader : ItemReader (Nat × Nat × UInt64) := do
  let initial ← next .unexpectedEof
  let value ← tolerantValue initial
  pure (initial.toNat / 32, initial.toNat % 32, UInt64.ofNat value)

def takeBytesSpan (declared : UInt64) : ItemReader Bytes := do
  let remaining ← remaining
  require (declared.toNat ≤ remaining) .lengthOverflow
  take declared.toNat .lengthOverflow

/-- A declared count, bounded by what the remaining input can hold. -/
def boundedItemCount (declared : UInt64) (minBytesPerItem : Nat) : ItemReader Nat := do
  let remaining ← remaining
  require (declared.toNat ≤ remaining / minBytesPerItem) .lengthOverflow
  pure declared.toNat

def decodeF16Tolerant : ItemReader CborValue := do
  let raw ← take 2 .unexpectedEof
  pure (.float (f16BitsToF64 (UInt16.ofNat (beNat raw))))

def decodeF32Tolerant : ItemReader CborValue := do
  let raw ← take 4 .unexpectedEof
  pure (.float (asF64 (Float32.ofBits (UInt32.ofNat (beNat raw)))))

def decodeF64Tolerant : ItemReader CborValue := do
  let raw ← take 8 .unexpectedEof
  pure (.float (Float.ofBits (UInt64.ofNat (beNat raw))))

def decodeSimpleTolerant (initial : UInt8) : ItemReader CborValue :=
  match initial.toNat % 32 with
  | 20 => pure (.bool false)
  | 21 => pure (.bool true)
  | 22 => pure .null
  | 25 => decodeF16Tolerant
  | 26 => decodeF32Tolerant
  | 27 => decodeF64Tolerant
  | _ => fail (.unsupportedType initial)

/-- Members up to the break. Each takes at least one byte, so `fuel` beyond the remaining length is
never used up. -/
def untilBreak {α : Type} (read : ItemReader (Option α)) : Nat → ItemReader (List α)
  | 0 => fail .unexpectedEof
  | fuel + 1 => do
      match ← read with
      | none => pure []
      | some item =>
        let items ← untilBreak read fuel
        pure (item :: items)

def indefinite {α : Type} (read : ItemReader (Option α)) : ItemReader (List α) := do
  let remaining ← remaining
  untilBreak read (remaining + 1)

section Members

/- Reads one member, with whether a break may stand in its place. -/
variable (read : Bool → ItemReader (Option CborValue))

def member : ItemReader CborValue := do
  match ← read false with
  | some item => pure item
  | none => fail (.unsupportedType 0xff)

def memberEntry : ItemReader (CborValue × CborValue) := do
  let key ← member read
  let value ← member read
  pure (key, value)

def chunk {α : Type} (initial : UInt8) (select : CborValue → Option α) : ItemReader (Option α) := do
  match ← read true with
  | none => pure none
  | some item =>
    match select item with
    | some content => pure (some content)
    | none => fail (.unsupportedType initial)

def decodeIndefiniteBytes : ItemReader CborValue := do
  let chunks ← indefinite (chunk read 0x5f fun
    | .bytes content => some content
    | _ => none)
  pure (.bytes chunks.flatten)

def decodeIndefiniteText : ItemReader CborValue := do
  let chunks ← indefinite (chunk read 0x7f fun
    | .text content => some content
    | _ => none)
  pure (.text (String.join chunks))

def decodeIndefiniteArray : ItemReader CborValue := do
  let items ← indefinite (read true)
  pure (.array items)

/-- Duplicate keys are kept. -/
def decodeIndefiniteMap : ItemReader CborValue := do
  let entries ← indefinite do
    match ← read true with
    | none => pure none
    | some key =>
      let value ← member read
      pure (some (key, value))
  pure (.map entries)

def decodeBodyTolerant (initial : UInt8) (kind additional : Nat) (value : UInt64) : ItemReader CborValue :=
  match kind with
  | 0 =>
    if additional = 31 then fail (.unsupportedType initial) else pure (.unsigned value)
  | 1 =>
    if additional = 31 then fail (.unsupportedType initial) else pure (.negative value)
  | 2 =>
    if additional = 31 then decodeIndefiniteBytes read
    else do
      let span ← takeBytesSpan value
      pure (.bytes span)
  | 3 =>
    if additional = 31 then decodeIndefiniteText read
    else do
      let span ← takeBytesSpan value
      match String.fromUTF8? ⟨span.toArray⟩ with
      | some content => pure (.text content)
      | none => fail .invalidUtf8
  | 4 =>
    if additional = 31 then decodeIndefiniteArray read
    else do
      let count ← boundedItemCount value 1
      let items ← many (member read) count
      pure (.array items)
  | 5 =>
    if additional = 31 then decodeIndefiniteMap read
    else do
      let count ← boundedItemCount value 2
      let entries ← many (memberEntry read) count
      pure (.map entries)
  | 6 =>
    if additional = 31 then fail (.unsupportedType initial)
    else do
      let inner ← member read
      pure (.tag value inner)
  | _ => fail (.unsupportedType initial)

end Members

namespace TolerantReader

def new : TolerantReader where
  maxDepth := Cbor.maxDepth

/-- Decodes one item that nests at most `levels` deep; an allowed break reads as `none`. -/
def decodeItem : Nat → Bool → ItemReader (Option CborValue)
  | 0, _ => fail .depthLimitExceeded
  | levels + 1, breakAllowed => do
      let initial ← peek .unexpectedEof
      if initial.toNat / 32 = 7 ∧ initial.toNat % 32 = 31 then do
        require breakAllowed (.unsupportedType initial)
        let _ ← next .unexpectedEof
        pure none
      else if initial.toNat / 32 = 7 then do
        let _ ← next .unexpectedEof
        let value ← decodeSimpleTolerant initial
        pure (some value)
      else do
        let (kind, additional, value) ← readTolerantHeader
        let value ← decodeBodyTolerant (decodeItem levels) initial kind additional value
        pure (some value)

def parse (reader : TolerantReader) (input : Bytes) : Except CborError CborValue :=
  match decodeItem (reader.maxDepth + 1) false input with
  | .error fault => .error fault
  | .ok (none, _) => .error (.unsupportedType 0xff)
  | .ok (some value, rest) => if rest.isEmpty then .ok value else .error .trailingBytes

end TolerantReader

/-! ## Heads and scalars -/

variable {initial : UInt8} {input rest : Bytes}

theorem tolerantValue_of_headerValue {value : Nat} (read : headerValue initial input = .ok (value, rest)) :
    tolerantValue initial input = .ok (value, rest) ∧ initial.toNat % 32 ≠ 31 := by
  have wide {width shorterMax : Nat} (read : readArgument width shorterMax input = .ok (value, rest)) :
      (do let raw ← take width .unexpectedEof; pure (beNat raw) : ItemReader Nat) input =
        .ok (value, rest) := by
    simp only [readArgument, bind_eq_ok, require_eq_ok] at read
    obtain ⟨raw, middle, taken, _, _, ⟨_, rfl⟩, finished⟩ := read
    exact bind_eq_ok.mpr ⟨raw, middle, taken, finished⟩
  unfold headerValue at read
  unfold tolerantValue
  dsimp only at read ⊢
  split_ifs at read ⊢ with direct one two four eight indefinite
  · exact ⟨read, by omega⟩
  · exact ⟨wide read, by omega⟩
  · exact ⟨wide read, by omega⟩
  · exact ⟨wide read, by omega⟩
  · exact ⟨wide read, by omega⟩
  · cases read
  · cases read

theorem readTolerantHeader_of_decodeHeader {kind : Nat}
    {value : UInt64} (read : decodeHeader (initial :: input) = .ok ((kind, value), rest)) :
    readTolerantHeader (initial :: input) = .ok ((kind, initial.toNat % 32, value), rest) ∧
      initial.toNat % 32 ≠ 31 := by
  rw [decodeHeader, bind_of_ok (next_cons _ initial input)] at read
  simp only [bind_eq_ok, pure_eq_ok] at read
  obtain ⟨found, _, header, ⟨⟩, rfl⟩ := read
  obtain ⟨tolerant, definite⟩ := tolerantValue_of_headerValue header
  rw [readTolerantHeader, bind_of_ok (next_cons _ initial input), bind_of_ok tolerant, pure_apply]
  exact ⟨rfl, definite⟩

theorem decodeSimpleTolerant_of_decodeSimple
    {value : CborValue} (read : decodeSimple initial input = .ok (value, rest)) :
    decodeSimpleTolerant initial input = .ok (value, rest) ∧ initial.toNat % 32 ≠ 31 := by
  unfold decodeSimple at read
  unfold decodeSimpleTolerant
  generalize initial.toNat % 32 = low at read ⊢
  split at read
  case h_4 =>
    simp only [readF16, bind_eq_ok, require_eq_ok, pure_eq_ok] at read
    obtain ⟨_, _, ⟨raw, middle, taken, _, _, ⟨_, rfl⟩, _, _, ⟨_, rfl⟩, rfl, rfl⟩, rfl, rfl⟩ := read
    exact ⟨bind_eq_ok.mpr ⟨raw, _, taken, rfl⟩, by decide⟩
  case h_5 =>
    simp only [readF32, bind_eq_ok, require_eq_ok, pure_eq_ok] at read
    obtain ⟨_, _, ⟨raw, middle, taken, _, _, ⟨_, rfl⟩, _, _, ⟨_, rfl⟩, _, _, ⟨_, rfl⟩, rfl, rfl⟩,
      rfl, rfl⟩ := read
    exact ⟨bind_eq_ok.mpr ⟨raw, _, taken, rfl⟩, by decide⟩
  case h_6 =>
    simp only [readF64, bind_eq_ok, require_eq_ok, pure_eq_ok] at read
    obtain ⟨_, _, ⟨raw, middle, taken, _, _, ⟨_, rfl⟩, _, _, ⟨_, rfl⟩, _, _, ⟨_, rfl⟩, rfl, rfl⟩,
      rfl, rfl⟩ := read
    exact ⟨bind_eq_ok.mpr ⟨raw, _, taken, rfl⟩, by decide⟩
  case h_7 => simp [bind_eq_ok] at read
  case h_8 => cases read
  case h_9 => cases read
  all_goals exact ⟨read, by decide⟩

theorem takeBytesSpan_of_checkedLen {declared : UInt64} {length : Nat}
    {input middle rest content : Bytes} (checked : checkedLen declared input = .ok (length, middle))
    (taken : take length CborError.lengthOverflow middle = .ok (content, rest)) :
    takeBytesSpan declared input = .ok (content, rest) := by
  obtain ⟨rfl, enough, rfl⟩ := checkedLen_eq_ok.mp checked
  rw [takeBytesSpan, bind_of_ok (remaining_apply input), require_bind_of enough, taken]

theorem boundedItemCount_of_le {declared : UInt64} {minBytesPerItem : Nat} {input : Bytes}
    (enough : declared.toNat ≤ input.length / minBytesPerItem) :
    boundedItemCount declared minBytesPerItem input = .ok (declared.toNat, input) := by
  rw [boundedItemCount, bind_of_ok (remaining_apply input), require_bind_of enough, pure_apply]

/-! ## Members -/

section Members

variable {strict : ItemReader CborValue} {tolerant : Bool → ItemReader (Option CborValue)}

theorem member_of_strict (below : ∀ {input rest : Bytes} {value : CborValue},
      strict input = .ok (value, rest) → ∀ breakAllowed, tolerant breakAllowed input = .ok (some value, rest))
    {input rest : Bytes} {value : CborValue} (read : strict input = .ok (value, rest)) :
    member tolerant input = .ok (value, rest) := by
  rw [member, bind_of_ok (below read false)]
  rfl

variable (below : ∀ {input rest : Bytes} {value : CborValue}, strict input = .ok (value, rest) →
  member tolerant input = .ok (value, rest))

include below

theorem many_member {count : Nat} {input rest : Bytes} {items : List CborValue}
    (read : many strict count input = .ok (items, rest)) :
    many (member tolerant) count input = .ok (items, rest) := by
  induction count generalizing input items with
  | zero => exact read
  | succ count ih =>
    simp only [many, bind_eq_ok, pure_eq_ok] at read ⊢
    obtain ⟨item, middle, first, items, _, others, rfl, rfl⟩ := read
    exact ⟨item, middle, below first, items, _, ih others, rfl, rfl⟩

theorem many_memberEntry {count : Nat} {previous : Option Bytes} {input rest : Bytes}
    {entries : List (CborValue × CborValue)}
    (read : decodeEntries strict count previous input = .ok (entries, rest)) :
    many (memberEntry tolerant) count input = .ok (entries, rest) := by
  induction count generalizing previous input entries with
  | zero => exact read
  | succ count ih =>
    simp only [decodeEntries, bind_eq_ok, pure_eq_ok, Prod.exists, ofExcept_eq_ok] at read
    obtain ⟨key, raw, middle, readKey, _, _, ⟨_, rfl⟩, value, after, readValue, entries, _, others,
      rfl, rfl⟩ := read
    have entry : memberEntry tolerant input = .ok ((key, value), after) := by
      rw [memberEntry, bind_of_ok (below (withConsumed_eq_ok.mp readKey).1),
        bind_of_ok (below readValue), pure_apply]
    rw [many, bind_of_ok entry, bind_of_ok (ih others), pure_apply]

end Members

/-! ## Whole values -/

theorem decodeBodyTolerant_of_decodeBody {levels : Nat}
    {tolerant : Bool → ItemReader (Option CborValue)}
    (below : ∀ {input rest : Bytes} {value : CborValue},
      decodeValue levels input = .ok (value, rest) → member tolerant input = .ok (value, rest))
    {kind additional : Nat} (definite : additional ≠ 31) {argument : UInt64} {value : CborValue}
    (read : decodeBody (decodeValue levels) initial kind argument input = .ok (value, rest)) :
    decodeBodyTolerant tolerant initial kind additional argument input = .ok (value, rest) := by
  unfold decodeBody at read
  unfold decodeBodyTolerant
  simp only [if_neg definite]
  split at read
  case h_3 =>
    simp only [bind_eq_ok] at read
    obtain ⟨length, middle, checked, content, after, taken, finished⟩ := read
    exact (bind_of_ok (takeBytesSpan_of_checkedLen checked taken)).trans finished
  case h_4 =>
    rw [bind_eq_ok] at read
    obtain ⟨length, middle, checked, read⟩ := read
    rw [bind_eq_ok] at read
    obtain ⟨content, after, taken, finished⟩ := read
    exact (bind_of_ok (takeBytesSpan_of_checkedLen checked taken)).trans finished
  case h_5 =>
    simp only [bind_eq_ok] at read
    obtain ⟨count, middle, checked, items, after, members, finished⟩ := read
    obtain ⟨rfl, enough, rfl⟩ := checkedLen_eq_ok.mp checked
    refine (bind_of_ok (boundedItemCount_of_le (by rwa [Nat.div_one]))).trans ?_
    exact (bind_of_ok (many_member below members)).trans finished
  case h_6 =>
    simp only [bind_eq_ok] at read
    obtain ⟨count, middle, checked, entries, after, members, finished⟩ := read
    obtain ⟨rfl, _, rfl⟩ := checkedLen_eq_ok.mp checked
    -- Both members of an entry take at least a byte.
    have enough : argument.toNat ≤ input.length / 2 := by
      obtain ⟨length, _, _, _, whole⟩ := (decodeEntries_eq_ok (decodeValue_exact levels)).mp members
      have long := CborValue.length_le_wireEntries entries
      rw [whole, List.length_append]
      omega
    refine (bind_of_ok (boundedItemCount_of_le enough)).trans ?_
    exact (bind_of_ok (many_memberEntry below members)).trans finished
  case h_7 =>
    simp only [tagAllowlist, List.not_mem_nil, bind_eq_ok, require_eq_ok, false_and, exists_false] at read
  case h_8 => cases read
  all_goals exact read

namespace TolerantReader

theorem decodeItem_of_decodeValue {levels : Nat} {input rest : Bytes} {value : CborValue}
    (read : decodeValue levels input = .ok (value, rest)) (breakAllowed : Bool) :
    decodeItem levels breakAllowed input = .ok (some value, rest) := by
  induction levels generalizing input rest value breakAllowed with
  | zero => cases read
  | succ levels ih =>
    cases input with
    | nil => cases read
    | cons initial tail =>
      have peeked : peek CborError.unexpectedEof (initial :: tail) = .ok (initial, initial :: tail) :=
        rfl
      rw [decodeValue, bind_of_ok peeked] at read
      rw [decodeItem, bind_of_ok peeked]
      split_ifs at read with simple
      · rw [bind_of_ok (next_cons _ initial tail)] at read
        obtain ⟨tolerant, definite⟩ := decodeSimpleTolerant_of_decodeSimple read
        rw [if_neg fun both => definite both.2, if_pos simple,
          bind_of_ok (next_cons _ initial tail), bind_of_ok tolerant, pure_apply]
      · rw [bind_eq_ok] at read
        obtain ⟨⟨kind, argument⟩, middle, header, read⟩ := read
        obtain ⟨tolerant, definite⟩ := readTolerantHeader_of_decodeHeader header
        rw [if_neg fun both => simple both.1, if_neg simple, bind_of_ok tolerant]
        have members {input rest : Bytes} {value : CborValue}
            (read : decodeValue levels input = .ok (value, rest)) :
            member (decodeItem levels) input = .ok (value, rest) := member_of_strict ih read
        exact bind_of_ok (decodeBodyTolerant_of_decodeBody members definite read)

/-- The tolerant reader accepts every canonical encoding, with the same value. -/
theorem parse_of_fromCanonicalBytes {input : Bytes} {value : CborValue}
    (decoded : CborValue.fromCanonicalBytes input = .ok value) : new.parse input = .ok value := by
  rw [CborValue.fromCanonicalBytes] at decoded
  cases read : decodeValue (Cbor.maxDepth + 1) input with
  | error fault =>
    rw [read] at decoded
    cases decoded
  | ok found =>
    obtain ⟨found, rest⟩ := found
    rw [read] at decoded
    have tolerant := decodeItem_of_decodeValue read false
    rw [parse, new, tolerant]
    exact decoded

theorem parse_nestedMap : CborValue.fromCanonicalBytes [0xa1, 0x18, 0x20, 0x81, 0xf6] =
      .ok (.map [(.unsigned 32, .array [.null])]) ∧
    new.parse [0xa1, 0x18, 0x20, 0x81, 0xf6] = .ok (.map [(.unsigned 32, .array [.null])]) :=
  ⟨rfl, parse_of_fromCanonicalBytes rfl⟩

end TolerantReader

end Ldgr.Format.Cbor
