import Ldgr.Format.Cbor.FloatProperties
import Ldgr.Base.Grammar
import Ldgr.Format.Cbor.Items

/-! What the item reader accepts: exactly the encoder's items, and one-byte simple values. -/

namespace Ldgr.Format.Cbor

open Ldgr.Base Ldgr.Base.Reader List Item

/-! ## Item heads -/

variable {input rest : Bytes} {initial : UInt8} {kind : Nat} {value : Float} {item : Item}
  {α : Type}

theorem readArgument_eq_ok {width shorterMax value : Nat} :
    readArgument width shorterMax input = .ok (value, rest) ↔
      shorterMax < value ∧ value < 256 ^ width ∧ input = beBytes width value ++ rest := by
  simp only [readArgument, bind_eq_ok, require_eq_ok, take_eq_ok, pure_eq_ok]
  constructor
  · intro result
    obtain ⟨raw, middle, ⟨length, rfl⟩, _, _, ⟨longer, rfl⟩, rfl, rfl⟩ := result
    subst length
    exact ⟨longer, beNat_lt raw, by rw [beBytes_beNat]⟩
  · intro result
    obtain ⟨longer, fits, rfl⟩ := result
    refine ⟨beBytes width value, rest, ⟨length_beBytes width value, rfl⟩, (), rest, ?_⟩
    rw [beNat_beBytes fits]
    exact ⟨⟨longer, rfl⟩, rfl, rfl⟩

theorem initialByte_toNat {kind additional : Nat} (kindSmall : kind < 8) (small : additional < 32) :
    (initialByte kind additional).toNat = kind * 32 + additional := by
  rw [initialByte, UInt8.toNat_ofNat', Nat.mod_eq_of_lt (by omega)]

theorem initialByte_parts (initial : UInt8) :
    initialByte (initial.toNat / 32) (initial.toNat % 32) = initial := by
  apply UInt8.toNat.inj
  have bound := initial.toNat_lt
  rw [initialByte_toNat (by omega) (by omega)]
  omega

/-- The additional information and the argument bytes of a shortest-form head. -/
def shortest (value : Nat) : Nat × Bytes :=
  if value ≤ 23 then (value, [])
  else if value ≤ 0xff then (24, beBytes 1 value)
  else if value ≤ 0xffff then (25, beBytes 2 value)
  else if value ≤ 0xffffffff then (26, beBytes 4 value)
  else (27, beBytes 8 value)

theorem major_eq (kind : Nat) (value : UInt64) : major kind value =
      initialByte kind (shortest value.toNat).1 :: (shortest value.toNat).2 := by
  unfold major shortest
  split
  · rfl
  split
  · rfl
  split
  · rfl
  split <;> rfl

theorem length_major_pos (kind : Nat) (value : UInt64) : 1 ≤ (major kind value).length := by
  rw [major_eq, length_cons]
  omega

theorem length_major_le (kind : Nat) (value : UInt64) : (major kind value).length ≤ 9 := by
  unfold major
  split_ifs <;> simp

theorem shortest_lt (value : Nat) : (shortest value).1 < 28 := by
  unfold shortest
  split_ifs <;> dsimp only <;> omega

/-- The reader of an argument accepts its shortest form only. -/
theorem headerValue_eq_ok {value : Nat} : headerValue initial input = .ok (value, rest) ↔
      value < 2 ^ 64 ∧ initial.toNat % 32 = (shortest value).1 ∧ input = (shortest value).2 ++ rest := by
  generalize known : initial.toNat % 32 = additional
  unfold shortest headerValue
  simp only [known]
  constructor
  · intro result
    split_ifs at result with direct one two four eight
    · obtain ⟨rfl, rfl⟩ := pure_eq_ok.mp result
      simp only [if_pos direct, nil_append, and_true]
      omega
    · obtain ⟨longer, fits, rfl⟩ := readArgument_eq_ok.mp result
      rw [if_neg (by omega), if_pos (by omega)]
      exact ⟨by omega, one, rfl⟩
    · obtain ⟨longer, fits, rfl⟩ := readArgument_eq_ok.mp result
      rw [if_neg (by omega), if_neg (by omega), if_pos (by omega)]
      exact ⟨by omega, two, rfl⟩
    · obtain ⟨longer, fits, rfl⟩ := readArgument_eq_ok.mp result
      rw [if_neg (by omega), if_neg (by omega), if_neg (by omega), if_pos (by omega)]
      exact ⟨by omega, four, rfl⟩
    · obtain ⟨longer, fits, rfl⟩ := readArgument_eq_ok.mp result
      rw [if_neg (by omega), if_neg (by omega), if_neg (by omega), if_neg (by omega)]
      exact ⟨by omega, eight, rfl⟩
    all_goals cases result
  · intro form
    obtain ⟨fits, parts, rfl⟩ := form
    split_ifs at parts ⊢ with direct one two four
    all_goals dsimp only at parts
    all_goals subst parts
    all_goals simp only [nil_append, pure_apply, readArgument_eq_ok, and_true]
    all_goals omega

theorem decodeHeader_eq_ok {value : UInt64} : decodeHeader input = .ok ((kind, value), rest) ↔
      kind < 8 ∧ input = major kind value ++ rest := by
  simp only [decodeHeader, bind_eq_ok, next_eq_ok, headerValue_eq_ok, pure_eq_ok, Prod.mk.injEq,
    major_eq, cons_append]
  constructor
  · intro result
    obtain ⟨initial, _, rfl, argument, _, ⟨fits, additional, rfl⟩, ⟨rfl, rfl⟩, rfl⟩ := result
    have bound := initial.toNat_lt
    rw [UInt64.toNat_ofNat_of_lt' fits, ← additional, initialByte_parts]
    exact ⟨by omega, rfl⟩
  · intro form
    obtain ⟨small, rfl⟩ := form
    have additional := shortest_lt value.toNat
    refine ⟨_, _, rfl, value.toNat, rest, ⟨value.toNat_lt, ?_, rfl⟩, ⟨?_, ?_⟩, rfl⟩
    · rw [initialByte_toNat small (by omega)]
      omega
    · rw [initialByte_toNat small (by omega)]
      omega
    · exact UInt64.ofNat_toNat

/-! ## Floats -/

theorem readF16_eq_ok : readF16 input = .ok (value, rest) ↔
      CanonicalFloat value ∧ ∃ halfBits, valueRoundTripsAsF16 value = some halfBits ∧
        input = beBytes 2 halfBits.toNat ++ rest := by
  simp only [readF16, bind_eq_ok, require_eq_ok, take_eq_ok, pure_eq_ok]
  constructor
  · intro result
    obtain ⟨raw, _, ⟨length, rfl⟩, _, _, ⟨number, rfl⟩, _, _, ⟨notNegative, rfl⟩, rfl, rfl⟩ := result
    have bits : (UInt16.ofNat (beNat raw)).toNat = beNat raw := by
      have bound := beNat_lt raw
      rw [length] at bound
      exact UInt16.toNat_ofNat_of_lt' bound
    refine ⟨⟨number, notNegative⟩, _, valueRoundTripsAsF16_half ⟨number, notNegative⟩, ?_⟩
    rw [bits, ← length, beBytes_beNat]
  · intro form
    obtain ⟨canonical, halfBits, half, rfl⟩ := form
    have fits : halfBits.toNat < 256 ^ 2 := halfBits.toNat_lt
    refine ⟨beBytes 2 halfBits.toNat, rest, ⟨length_beBytes _ _, rfl⟩, ?_⟩
    rw [beNat_beBytes fits, UInt16.ofNat_toNat, canonical.of_half half]
    exact ⟨(), rest, ⟨canonical.number, rfl⟩, (), rest, ⟨canonical.notNegativeZero, rfl⟩, rfl, rfl⟩

theorem readF32_eq_ok : readF32 input = .ok (value, rest) ↔
      CanonicalFloat value ∧ valueRoundTripsAsF16 value = none ∧ (asF64 (asF32 value) == value) = true ∧
          input = beBytes 4 (asF32 value).toBits.toNat ++ rest := by
  simp only [readF32, bind_eq_ok, require_eq_ok, take_eq_ok, pure_eq_ok]
  constructor
  · intro result
    obtain ⟨raw, _, ⟨length, rfl⟩, _, _, ⟨number, rfl⟩, _, _, ⟨notNegative, rfl⟩, _, _,
      ⟨tooWide, rfl⟩, rfl, rfl⟩ := result
    have bits : (UInt32.ofNat (beNat raw)).toNat = beNat raw := by
      have bound := beNat_lt raw
      rw [length] at bound
      exact UInt32.toNat_ofNat_of_lt' bound
    have canonical := canonicalFloat_asF64 number notNegative
    refine ⟨canonical, valueRoundTripsAsF16_single tooWide, ?_, ?_⟩
    · rw [asF32_asF64]
      exact canonical.beq_self
    · rw [asF32_asF64, toBits_ofBits32 number, bits, ← length, beBytes_beNat]
  · intro form
    obtain ⟨canonical, notHalf, fitsSingle, rfl⟩ := form
    have same := canonical.asF64_asF32 fitsSingle
    generalize narrowed : asF32 value = single at *
    obtain ⟨number, notNegative, tooWide⟩ := canonical.of_single narrowed same notHalf
    have fits : single.toBits.toNat < 256 ^ 4 := single.toBits.toNat_lt
    refine ⟨beBytes 4 single.toBits.toNat, rest, ⟨length_beBytes _ _, rfl⟩, ?_⟩
    rw [beNat_beBytes fits, UInt32.ofNat_toNat, Float32.ofBits_toBits]
    exact ⟨(), rest, ⟨number, rfl⟩, (), rest, ⟨notNegative, rfl⟩, (), rest, ⟨tooWide, rfl⟩, same, rfl⟩

theorem readF64_eq_ok : readF64 input = .ok (value, rest) ↔
      CanonicalFloat value ∧ (asF64 (asF32 value) == value) = false ∧
        input = beBytes 8 value.toBits.toNat ++ rest := by
  simp only [readF64, bind_eq_ok, require_eq_ok, take_eq_ok, pure_eq_ok]
  constructor
  · intro result
    obtain ⟨raw, _, ⟨length, rfl⟩, _, _, ⟨number, rfl⟩, _, _, ⟨notNegative, rfl⟩, _, _,
      ⟨tooWide, rfl⟩, rfl, rfl⟩ := result
    have bits : (UInt64.ofNat (beNat raw)).toNat = beNat raw := by
      have bound := beNat_lt raw
      rw [length] at bound
      exact UInt64.toNat_ofNat_of_lt' bound
    refine ⟨⟨number, notNegative⟩, tooWide, ?_⟩
    rw [toBits_ofBits number, bits, ← length, beBytes_beNat]
  · intro form
    obtain ⟨canonical, tooWide, rfl⟩ := form
    have fits : value.toBits.toNat < 256 ^ 8 := value.toBits.toNat_lt
    refine ⟨beBytes 8 value.toBits.toNat, rest, ⟨length_beBytes _ _, rfl⟩, ?_⟩
    rw [beNat_beBytes fits, UInt64.ofNat_toNat, Float.ofBits_toBits]
    exact ⟨(), rest, ⟨canonical.number, rfl⟩, (), rest, ⟨canonical.notNegativeZero, rfl⟩, (), rest,
      ⟨tooWide, rfl⟩, rfl, rfl⟩

theorem encodeMinimalFloat_half {halfBits : UInt16} (half : valueRoundTripsAsF16 value = some halfBits) :
    encodeMinimalFloat value = 0xf9 :: beBytes 2 halfBits.toNat := by
  simp only [encodeMinimalFloat, half]

theorem encodeMinimalFloat_single (notHalf : valueRoundTripsAsF16 value = none)
    (fits : (asF64 (asF32 value) == value) = true) :
    encodeMinimalFloat value = 0xfa :: beBytes 4 (asF32 value).toBits.toNat := by
  simp only [encodeMinimalFloat, notHalf, fits, if_true]

theorem encodeMinimalFloat_double (tooWide : (asF64 (asF32 value) == value) = false) :
    encodeMinimalFloat value = 0xfb :: beBytes 8 value.toBits.toNat := by
  have notHalf : valueRoundTripsAsF16 value = none := by
    simp [valueRoundTripsAsF16, bne, tooWide]
  simp [encodeMinimalFloat, notHalf, tooWide]

/-! ## Text -/

theorem fromUTF8?_eq_some {content : Bytes} {value : String} :
    String.fromUTF8? ⟨content.toArray⟩ = some value ↔ textBytes value = content := by
  unfold String.fromUTF8? textBytes
  constructor
  · intro result
    split at result
    · cases result
      rfl
    · cases result
  · intro same
    subst same
    have valid := value.isValidUTF8
    simp [String.toUTF8, valid, String.fromUTF8]

/-! ## Items -/

/-- The item fits in front of `rest`: lengths are machine words, declared counts do not exceed the
remaining input, floats are canonical. -/
def Item.Readable (rest : Bytes) : Item → Prop
  | .bytes content => content.length < 2 ^ 64
  | .text content => (textBytes content).length < 2 ^ 64
  | .array count => count.toNat ≤ rest.length
  | .map count => count.toNat ≤ rest.length
  | .float value => CanonicalFloat value
  | _ => True

theorem checkedLen_eq_ok {declared : UInt64} {length : Nat} : checkedLen declared input = .ok (length, rest) ↔
      length = declared.toNat ∧ declared.toNat ≤ rest.length ∧ input = rest := by
  simp only [checkedLen, bind_eq_ok, require_eq_ok, pure_eq_ok, remaining, Except.ok.injEq, Prod.mk.injEq]
  constructor
  · intro result
    obtain ⟨_, _, ⟨rfl, rfl⟩, _, _, ⟨fits, rfl⟩, rfl, rfl⟩ := result
    exact ⟨rfl, fits, rfl⟩
  · intro form
    obtain ⟨rfl, fits, rfl⟩ := form
    exact ⟨_, _, ⟨rfl, rfl⟩, (), input, ⟨fits, rfl⟩, rfl, rfl⟩

private theorem initial_eq {kind additional : Nat}
    (kindBits : initial.toNat / 32 = kind) (lowBits : initial.toNat % 32 = additional) :
    initial = initialByte kind additional := by
  rw [← kindBits, ← lowBits, initialByte_parts]

/-- A one-byte simple value, which the reader returns as an unsigned integer. -/
def SimpleByte (input rest : Bytes) (item : Item) : Prop :=
  ∃ byte : UInt8, 24 ≤ byte.toNat ∧ input = 0xf8 :: byte :: rest ∧ item = .unsigned (UInt64.ofNat byte.toNat)

theorem readSimple_ok (kind : initial.toNat / 32 = 7) (result : readSimple initial input = .ok (item, rest)) :
    (initial :: input = item.encode ++ rest ∧ item.Readable rest) ∨
      SimpleByte (initial :: input) rest item := by
  unfold readSimple at result
  generalize additional : initial.toNat % 32 = low at result
  split at result
  · obtain ⟨rfl, rfl⟩ := pure_eq_ok.mp result
    exact .inl ⟨by rw [initial_eq kind additional]; rfl, trivial⟩
  · obtain ⟨rfl, rfl⟩ := pure_eq_ok.mp result
    exact .inl ⟨by rw [initial_eq kind additional]; rfl, trivial⟩
  · obtain ⟨rfl, rfl⟩ := pure_eq_ok.mp result
    exact .inl ⟨by rw [initial_eq kind additional]; rfl, trivial⟩
  · simp only [bind_eq_ok, readF16_eq_ok, pure_eq_ok] at result
    obtain ⟨value, _, ⟨canonical, halfBits, half, rfl⟩, rfl, rfl⟩ := result
    refine .inl ⟨?_, canonical⟩
    rw [encode, encodeMinimalFloat_half half, initial_eq kind additional]
    rfl
  · simp only [bind_eq_ok, readF32_eq_ok, pure_eq_ok] at result
    obtain ⟨value, _, ⟨canonical, notHalf, fits, rfl⟩, rfl, rfl⟩ := result
    refine .inl ⟨?_, canonical⟩
    rw [encode, encodeMinimalFloat_single notHalf fits, initial_eq kind additional]
    rfl
  · simp only [bind_eq_ok, readF64_eq_ok, pure_eq_ok] at result
    obtain ⟨value, _, ⟨canonical, tooWide, rfl⟩, rfl, rfl⟩ := result
    refine .inl ⟨?_, canonical⟩
    rw [encode, encodeMinimalFloat_double tooWide, initial_eq kind additional]
    rfl
  · simp only [bind_eq_ok, next_eq_ok, require_eq_ok, pure_eq_ok] at result
    obtain ⟨byte, _, rfl, _, _, ⟨wide, rfl⟩, rfl, rfl⟩ := result
    exact .inr ⟨byte, wide, by rw [initial_eq kind additional]; rfl, rfl⟩
  · cases result
  · cases result

theorem readBody_ok {value : UInt64} (result : readBody initial kind value input = .ok (item, rest)) :
    major kind value ++ input = item.encode ++ rest ∧ item.Readable rest := by
  unfold readBody at result
  split at result
  · obtain ⟨rfl, rfl⟩ := pure_eq_ok.mp result
    exact ⟨rfl, trivial⟩
  · obtain ⟨rfl, rfl⟩ := pure_eq_ok.mp result
    exact ⟨rfl, trivial⟩
  · simp only [bind_eq_ok, checkedLen_eq_ok, take_eq_ok, pure_eq_ok] at result
    obtain ⟨_, _, ⟨rfl, _, rfl⟩, content, _, ⟨length, rfl⟩, rfl, rfl⟩ := result
    refine ⟨?_, length.trans_lt value.toNat_lt⟩
    rw [encode, Cbor.bytes, length, UInt64.ofNat_toNat, append_assoc]
  · simp only [bind_eq_ok, checkedLen_eq_ok, take_eq_ok] at result
    obtain ⟨_, _, ⟨rfl, _, rfl⟩, content, _, ⟨length, rfl⟩, result⟩ := result
    cases decoded : String.fromUTF8? ⟨content.toArray⟩ with
    | some text =>
      simp only [decoded] at result
      obtain ⟨rfl, rfl⟩ := pure_eq_ok.mp result
      have same := fromUTF8?_eq_some.mp decoded
      subst same
      refine ⟨?_, length.trans_lt value.toNat_lt⟩
      rw [encode, Cbor.text, length, UInt64.ofNat_toNat, append_assoc]
    | none =>
      simp only [decoded] at result
      cases result
  · simp only [bind_eq_ok, checkedLen_eq_ok, pure_eq_ok] at result
    obtain ⟨_, _, ⟨rfl, fits, rfl⟩, rfl, rfl⟩ := result
    exact ⟨rfl, fits⟩
  · simp only [bind_eq_ok, checkedLen_eq_ok, pure_eq_ok] at result
    obtain ⟨_, _, ⟨rfl, fits, rfl⟩, rfl, rfl⟩ := result
    exact ⟨rfl, fits⟩
  · cases result

private theorem readItem_major (small : kind < 7) (value : UInt64) (tail : Bytes) :
    readItem (major kind value ++ tail) =
      readBody (initialByte kind (shortest value.toNat).1) kind value tail := by
  have header : decodeHeader (major kind value ++ tail) = .ok ((kind, value), tail) :=
    decodeHeader_eq_ok.mpr ⟨by omega, rfl⟩
  have additional := shortest_lt value.toNat
  have kindBits : (initialByte kind (shortest value.toNat).1).toNat / 32 ≠ 7 := by
    rw [initialByte_toNat (by omega) (by omega)]
    omega
  rw [major_eq, cons_append] at header ⊢
  rw [readItem, bind_of_ok (peek_eq_ok.mpr ⟨rfl, rfl⟩), if_neg kindBits, bind_of_ok header]

private theorem readItem_simple (kind : initial.toNat / 32 = 7) (tail : Bytes) :
    readItem (initial :: tail) = readSimple initial tail := by
  rw [readItem, bind_of_ok (peek_eq_ok.mpr ⟨rfl, rfl⟩), if_pos kind]
  exact bind_of_ok (next_cons _ initial tail)

private theorem readItem_float (canonical : CanonicalFloat value) (rest : Bytes) :
    readItem (encodeMinimalFloat value ++ rest) = .ok (.float value, rest) := by
  cases half : valueRoundTripsAsF16 value with
  | some halfBits =>
    rw [encodeMinimalFloat_half half, cons_append, readItem_simple (by decide)]
    exact bind_of_ok (readF16_eq_ok.mpr ⟨canonical, halfBits, half, rfl⟩)
  | none =>
    cases single : asF64 (asF32 value) == value with
    | true =>
      rw [encodeMinimalFloat_single half single, cons_append, readItem_simple (by decide)]
      exact bind_of_ok (readF32_eq_ok.mpr ⟨canonical, half, single, rfl⟩)
    | false =>
      rw [encodeMinimalFloat_double single, cons_append, readItem_simple (by decide)]
      exact bind_of_ok (readF64_eq_ok.mpr ⟨canonical, single, rfl⟩)

theorem readItem_encode {rest : Bytes} (readable : item.Readable rest) :
    readItem (item.encode ++ rest) = .ok (item, rest) := by
  cases item with
  | unsigned value | negative value => exact readItem_major (by decide) value rest
  | bytes content =>
    have length : (UInt64.ofNat content.length).toNat = content.length :=
      UInt64.toNat_ofNat_of_lt' readable
    rw [encode, Cbor.bytes, append_assoc, readItem_major (by decide)]
    simp only [readBody, bind_eq_ok, checkedLen_eq_ok, take_eq_ok, pure_eq_ok]
    exact ⟨_, _, ⟨rfl, by simp [length], rfl⟩, content, rest, ⟨length.symm, rfl⟩, rfl, rfl⟩
  | text content =>
    have length : (UInt64.ofNat (textBytes content).length).toNat = (textBytes content).length :=
      UInt64.toNat_ofNat_of_lt' readable
    rw [encode, Cbor.text, append_assoc, readItem_major (by decide)]
    simp only [readBody, bind_eq_ok, checkedLen_eq_ok, take_eq_ok]
    refine ⟨_, _, ⟨rfl, by simp [length], rfl⟩, textBytes content, rest, ⟨length.symm, rfl⟩, ?_⟩
    rw [fromUTF8?_eq_some.mpr rfl]
    rfl
  | array count | map count =>
    rw [encode, readItem_major (by decide)]
    simp only [readBody, bind_eq_ok, checkedLen_eq_ok, pure_eq_ok]
    exact ⟨_, _, ⟨rfl, readable, rfl⟩, trivial, rfl⟩
  | bool value =>
    cases value with
    | false => exact @readItem_simple 0xf4 (by decide) rest
    | true => exact @readItem_simple 0xf5 (by decide) rest
  | null => exact @readItem_simple 0xf6 (by decide) rest
  | float value => exact readItem_float readable rest

theorem readItem_eq_ok : readItem input = .ok (item, rest) ↔
      (input = item.encode ++ rest ∧ item.Readable rest) ∨ SimpleByte input rest item := by
  constructor
  · intro result
    simp only [readItem, bind_eq_ok, peek_eq_ok] at result
    obtain ⟨initial, _, ⟨rfl, first⟩, result⟩ := result
    obtain ⟨tail, rfl⟩ : ∃ tail, input = initial :: tail := List.head?_eq_some_iff.mp first
    split at result
    · simp only [bind_eq_ok, next_eq_ok, List.cons.injEq] at result
      obtain ⟨_, _, ⟨rfl, rfl⟩, result⟩ := result
      exact readSimple_ok ‹_› result
    · obtain ⟨⟨kind, value⟩, middle, header, result⟩ := bind_eq_ok.mp result
      obtain ⟨_, whole⟩ := decodeHeader_eq_ok.mp header
      rw [whole]
      exact .inl (readBody_ok result)
  · intro form
    rcases form with ⟨rfl, readable⟩ | ⟨byte, wide, rfl, rfl⟩
    · exact readItem_encode readable
    · rw [readItem_simple (by decide)]
      change (next CborError.unexpectedEof >>= _) _ = _
      rw [bind_of_ok (next_cons _ byte rest), require_bind_of wide]
      rfl

/-! ## Item sequences -/

def Item.Canonical : Item → Prop
  | .float value => CanonicalFloat value
  | _ => True

/-- The input is a run of items in the encoder's form. -/
def ItemSequence (input : Bytes) : Prop :=
  ∃ items : List Item, (∀ item ∈ items, item.Canonical) ∧ input = items.flatMap encode

/-- An item sequence that fits in memory. -/
structure Wire (input : Bytes) : Prop where
  items : ItemSequence input
  fits : input.length < 2 ^ 64

theorem itemSequence_nil : ItemSequence [] :=
  ⟨[], by simp, rfl⟩

theorem itemSequence_append {left right : Bytes} (first : ItemSequence left)
    (second : ItemSequence right) : ItemSequence (left ++ right) := by
  obtain ⟨leftItems, leftCanonical, rfl⟩ := first
  obtain ⟨rightItems, rightCanonical, rfl⟩ := second
  refine ⟨leftItems ++ rightItems, ?_, by rw [flatMap_append]⟩
  intro item member
  rcases mem_append.mp member with member | member
  · exact leftCanonical item member
  · exact rightCanonical item member

theorem itemSequence_encode (canonical : item.Canonical) : ItemSequence item.encode :=
  ⟨[item], by simpa using canonical, by simp⟩

theorem itemSequence_flatMap {values : List α} {encode : α → Bytes}
    (each : ∀ value ∈ values, ItemSequence (encode value)) :
    ItemSequence (values.flatMap encode) := by
  induction values with
  | nil => exact itemSequence_nil
  | cons value values ih =>
    rw [flatMap_cons]
    exact itemSequence_append (each value mem_cons_self)
      (ih fun later member => each later (mem_cons_of_mem _ member))

private def Item.count : Item → Nat
  | .array count => count.toNat
  | .map count => count.toNat
  | _ => 0

private theorem Item.readable_padded (canonical : item.Canonical) (rest : Bytes)
    (fits : item.encode.length < 2 ^ 64) {padding : Nat} (enough : item.count ≤ padding) :
    item.Readable (rest ++ List.replicate padding 0) := by
  cases item with
  | bytes content =>
    simp only [Item.encode, Cbor.bytes, length_append] at fits
    change content.length < 2 ^ 64
    omega
  | text content =>
    simp only [Item.encode, Cbor.text, length_append] at fits
    change (textBytes content).length < 2 ^ 64
    omega
  | array count | map count =>
    simp only [Item.count] at enough
    simp only [Item.Readable, length_append, length_replicate]
    omega
  | float value => exact canonical
  | _ => trivial

theorem encode_append_inj {first second : Item} {left right : Bytes}
    (firstCanonical : first.Canonical) (secondCanonical : second.Canonical)
    (fits : (first.encode ++ left).length < 2 ^ 64)
    (same : first.encode ++ left = second.encode ++ right) : first = second ∧ left = right := by
  have firstFits : first.encode.length < 2 ^ 64 := by
    rw [length_append] at fits
    omega
  have secondFits : second.encode.length < 2 ^ 64 := by
    rw [same, length_append] at fits
    omega
  have firstReadable := Item.readable_padded firstCanonical left firstFits
    (Nat.le_add_right first.count second.count)
  have secondReadable := Item.readable_padded secondCanonical right secondFits
    (Nat.le_add_left second.count first.count)
  have firstRead := readItem_encode firstReadable
  have secondRead := readItem_encode secondReadable
  rw [← append_assoc, same, append_assoc, secondRead] at firstRead
  simp only [Except.ok.injEq, Prod.mk.injEq] at firstRead
  exact ⟨firstRead.1.symm, (append_cancel_right firstRead.2).symm⟩

theorem encode_eq_cons (item : Item) : ∃ initial tail, item.encode = initial :: tail ∧ initial ≠ 0xf8 := by
  have head {kind : Nat} (small : kind < 7) (value : UInt64) (tail : Bytes) :
      ∃ initial rest, major kind value ++ tail = initial :: rest ∧ initial ≠ 0xf8 := by
    have additional := shortest_lt value.toNat
    refine ⟨_, _, by rw [major_eq, cons_append], fun same => ?_⟩
    have value := congrArg UInt8.toNat same
    rw [initialByte_toNat (by omega) (by omega)] at value
    change _ = 248 at value
    omega
  cases item with
  | unsigned value => simpa [encode, Cbor.unsigned] using head (by decide) value []
  | negative value => simpa [encode, Cbor.negative] using head (by decide) value []
  | bytes content => exact head (by decide) _ content
  | text content => exact head (by decide) _ (textBytes content)
  | array count | map count => simpa [encode] using head (by decide) count []
  | bool value => cases value <;> exact ⟨_, _, rfl, by decide⟩
  | null => exact ⟨_, _, rfl, by decide⟩
  | float value =>
    simp only [encode, encodeMinimalFloat]
    split
    · exact ⟨_, _, rfl, by decide⟩
    · split <;> exact ⟨_, _, rfl, by decide⟩

theorem Item.Readable.canonical {rest : Bytes} (readable : item.Readable rest) : item.Canonical := by
  cases item with
  | float value => exact readable
  | _ => trivial

/-- On an item sequence the reader takes exactly one encoded item off the front. -/
theorem readItem_wire (wire : Wire input) (result : readItem input = .ok (item, rest)) :
    input = item.encode ++ rest ∧ item.Readable rest ∧ Wire rest := by
  obtain ⟨⟨items, canonical, form⟩, fits⟩ := wire
  cases items with
  | nil =>
    rw [flatMap_nil] at form
    subst form
    cases result
  | cons first items =>
    rw [flatMap_cons] at form
    rcases readItem_eq_ok.mp result with ⟨rfl, readable⟩ | ⟨byte, _, rfl, _⟩
    · obtain ⟨_, rfl⟩ := encode_append_inj readable.canonical (canonical first mem_cons_self) fits form
      refine ⟨rfl, readable, ⟨items, ?_, rfl⟩, ?_⟩
      · exact fun later member => canonical later (mem_cons_of_mem _ member)
      · rw [length_append] at fits
        omega
    · obtain ⟨initial, tail, whole, notSimple⟩ := encode_eq_cons first
      rw [whole, cons_append, List.cons.injEq] at form
      exact absurd form.1.symm notSimple

/-! ## Readers of one kind -/

private theorem readKind_eq_ok {fault : CborError} {select : Item → Option α} {value : α} :
    readKind fault select input = .ok (value, rest) ↔
      ∃ item, readItem input = .ok (item, rest) ∧ select item = some value := by
  simp only [readKind, bind_eq_ok]
  constructor
  · intro result
    obtain ⟨item, middle, read, result⟩ := result
    cases selected : select item with
    | none =>
      rw [selected] at result
      cases result
    | some found =>
      rw [selected] at result
      obtain ⟨rfl, rfl⟩ := pure_eq_ok.mp result
      exact ⟨item, read, selected⟩
  · intro form
    obtain ⟨item, read, selected⟩ := form
    refine ⟨item, rest, read, ?_⟩
    rw [selected]
    rfl

/-- The written forms of values that are one encoding each. -/
def encodedAs {α : Type} (encode : α → Bytes) : Form UInt8 α :=
  fun value front => front = encode value

/-- Exact readers of item sequences that fit in memory. -/
abbrev ItemReads {α : Type} (atLeast : Nat) (read : ItemReader α) (form : Form UInt8 α) : Prop :=
  Reads Wire (2 ^ 64) atLeast read form form

theorem length_encode_pos (item : Item) : 1 ≤ item.encode.length := by
  obtain ⟨initial, tail, whole, _⟩ := encode_eq_cons item
  rw [whole, length_cons]
  omega

theorem readKind_reads {fault : CborError} {select : Item → Option α} (item : α → Item)
    (selects : ∀ found value, select found = some value ↔ found = item value)
    (scalar : ∀ value, (item value).count = 0) (canonical : ∀ value, (item value).Canonical) :
    ItemReads 1 (readKind fault select) (encodedAs fun value => (item value).encode) where
  accepts :=
    { long := fun formed => formed ▸ length_encode_pos _
      reads := fun formed fits rest => by
        subst formed
        refine readKind_eq_ok.mpr ⟨_, readItem_encode ?_, (selects _ _).mpr rfl⟩
        have readable := Item.readable_padded (canonical _) rest fits (Nat.le_of_eq (scalar _))
        simpa using readable }
  sound :=
    { split := fun wire result => by
        obtain ⟨found, read, selected⟩ := readKind_eq_ok.mp result
        obtain ⟨whole, _, wireRest⟩ := readItem_wire wire read
        obtain rfl := (selects _ _).mp selected
        exact ⟨_, rfl, whole, wireRest⟩ }

theorem readUnsigned_reads : ItemReads 1 readUnsigned (encodedAs unsigned) :=
  readKind_reads .unsigned (by intro found value; cases found <;> simp) (fun _ => rfl) (fun _ => trivial)

theorem readBytes_reads : ItemReads 1 readBytes (encodedAs bytes) :=
  readKind_reads .bytes (by intro found value; cases found <;> simp) (fun _ => rfl) (fun _ => trivial)

theorem readBool_reads : ItemReads 1 readBool (encodedAs boolean) :=
  readKind_reads .bool (by intro found value; cases found <;> simp) (fun _ => rfl) (fun _ => trivial)

/-! ## Arrays -/

theorem readArray_append {count : Nat} {rest : Bytes} (enough : count ≤ rest.length)
    (fits : count < 2 ^ 64) : readArray (array count ++ rest) = .ok (count, rest) := by
  have toNat : (UInt64.ofNat count).toNat = count := UInt64.toNat_ofNat_of_lt' fits
  have readable : (Item.array (UInt64.ofNat count)).Readable rest := by
    rw [Item.Readable, toNat]
    exact enough
  exact readKind_eq_ok.mpr ⟨_, readItem_encode readable, congrArg some toNat⟩

theorem readArray_sound : Sound Wire readArray (encodedAs array) where
  split wire result := by
    obtain ⟨item, read, selected⟩ := readKind_eq_ok.mp result
    obtain ⟨whole, _, wireRest⟩ := readItem_wire wire read
    cases item with
    | array found =>
      cases selected
      refine ⟨_, rfl, ?_, wireRest⟩
      rw [array, UInt64.ofNat_toNat]
      exact whole
    | _ => cases selected

section Arrays

variable {β : Type} {next : Nat → ItemReader β} {lower upper : Nat → Form UInt8 β}

theorem readArray_reads {atLeast : Nat → Nat}
    (inner : ∀ count, Reads Wire (2 ^ 64) (atLeast count) (next count) (lower count) (upper count))
    (enough : ∀ {count value body}, lower count value body → count ≤ body.length) :
    Reads Wire (2 ^ 64) 1 (readArray >>= next) (Form.bind (encodedAs array) lower)
      (Form.bind (encodedAs array) upper) where
  accepts :=
    { long := fun formed => by
        obtain ⟨count, _, body, rfl, rfl, _⟩ := formed
        have positive := length_major_pos 4 (UInt64.ofNat count)
        rw [length_append, array]
        omega
      reads := fun formed fits rest => by
        obtain ⟨count, _, body, rfl, rfl, formed⟩ := formed
        have counted := enough formed
        rw [length_append] at fits
        rw [append_assoc, bind_of_ok (readArray_append _ _)]
        · exact (inner count).accepts.reads formed (by omega) rest
        · rw [length_append]
          omega
        · omega }
  sound := readArray_sound.bind fun count => (inner count).sound

theorem counted_reads {atLeast : Nat → Nat} {condition : Nat → Prop} [DecidablePred condition]
    {fault : CborError}
    (inner : ∀ count, Reads Wire (2 ^ 64) (atLeast count) (next count) (lower count) (upper count))
    (enough : ∀ {count value body}, condition count → lower count value body → count ≤ body.length) :
    Reads Wire (2 ^ 64) 1
      (readArray >>= fun count => Reader.require (condition count) fault >>= fun _ => next count)
      (fun value front => ∃ count body, front = array count ++ body ∧ condition count ∧ lower count value body)
      (fun value front => ∃ count body, front = array count ++ body ∧ condition count ∧
        upper count value body) := by
  refine (readArray_reads (fun count => (inner count).require)
    fun formed => enough formed.1 formed.2).mono ?_ ?_
  · intro value front formed
    obtain ⟨count, body, rfl, allowed, formed⟩ := formed
    exact ⟨count, _, body, rfl, rfl, allowed, formed⟩
  · intro value front formed
    obtain ⟨count, _, body, rfl, rfl, allowed, formed⟩ := formed
    exact ⟨count, body, rfl, allowed, formed⟩

theorem fields_reads {atLeast count : Nat} {fault : CborError} {fields : ItemReader β}
    {lower upper : Form UInt8 β} (inner : Reads Wire (2 ^ 64) atLeast fields lower upper)
    (enough : count ≤ atLeast) :
    Reads Wire (2 ^ 64) 1 (readArray >>= fun found => Reader.require (found = count) fault >>= fun _ => fields)
      (fun value front => ∃ body, front = array count ++ body ∧ lower value body)
      (fun value front => ∃ body, front = array count ++ body ∧ upper value body) := by
  refine (counted_reads (fun _ => inner) ?_).mono ?_ ?_
  · intro found value body same formed
    rw [same]
    exact Nat.le_trans enough (inner.accepts.long formed)
  · intro value front formed
    obtain ⟨body, rfl, formed⟩ := formed
    exact ⟨count, body, rfl, rfl, formed⟩
  · intro value front formed
    obtain ⟨_, body, rfl, rfl, formed⟩ := formed
    exact ⟨body, rfl, formed⟩

end Arrays

theorem elements_reads {read : ItemReader α} {form : Form UInt8 α} (each : ItemReads 1 read form) :
    ItemReads 1 (readArray >>= Reader.many read)
      (fun values front => ∃ body, front = array values.length ++ body ∧ Form.Run form values body) := by
  have inner (count : Nat) : ItemReads count (Reader.many read count)
      (fun values front => values.length = count ∧ Form.Run form values front) :=
    ⟨each.accepts.many, each.sound.many⟩
  refine (readArray_reads inner fun formed => (inner _).accepts.long formed).congr fun values front => ?_
  simp only [Form.bind, encodedAs]
  constructor
  · intro formed
    obtain ⟨_, _, body, rfl, rfl, rfl, run⟩ := formed
    exact ⟨body, rfl, run⟩
  · intro formed
    obtain ⟨body, rfl, run⟩ := formed
    exact ⟨_, _, body, rfl, rfl, rfl, run⟩

theorem itemSequence_unsigned (value : UInt64) : ItemSequence (unsigned value) :=
  @itemSequence_encode (.unsigned value) trivial

theorem itemSequence_bytes (content : Bytes) : ItemSequence (bytes content) :=
  @itemSequence_encode (.bytes content) trivial

theorem itemSequence_boolean (value : Bool) : ItemSequence (boolean value) :=
  @itemSequence_encode (.bool value) trivial

theorem itemSequence_array (count : Nat) : ItemSequence (array count) :=
  @itemSequence_encode (.array (UInt64.ofNat count)) trivial

end Ldgr.Format.Cbor
