import Ldgr.Format.Cbor.DecodeProperties

/-! Canonical CBOR is the image of the encoder: what is decoded encodes to the bytes read, and what
is encoded decodes to the value with its maps sorted. -/

namespace Ldgr.Format.Cbor

open Ldgr.Base Reader CborValue List

namespace CborValue

@[elab_as_elim] theorem induction {holds : CborValue → Prop}
    (unsigned : ∀ value, holds (.unsigned value)) (negative : ∀ value, holds (.negative value))
    (bytes : ∀ content, holds (.bytes content)) (text : ∀ content, holds (.text content))
    (array : ∀ items, (∀ item ∈ items, holds item) → holds (.array items))
    (map : ∀ entries, (∀ entry ∈ entries, holds entry.1 ∧ holds entry.2) → holds (.map entries))
    (tag : ∀ tagNum inner, holds inner → holds (.tag tagNum inner))
    (bool : ∀ value, holds (.bool value)) (null : holds .null)
    (float : ∀ value, holds (.float value)) (value : CborValue) : holds value := by
  refine @CborValue.rec holds (fun items => ∀ item ∈ items, holds item)
    (fun entries => ∀ entry ∈ entries, holds entry.1 ∧ holds entry.2)
    (fun entry => holds entry.1 ∧ holds entry.2) unsigned negative bytes text array map tag
    bool null float ?_ ?_ ?_ ?_ ?_ value
  · exact forall_mem_nil _
  · intro item items first rest
    exact forall_mem_cons.mpr ⟨first, rest⟩
  · exact forall_mem_nil _
  · intro entry entries first rest
    exact forall_mem_cons.mpr ⟨first, rest⟩
  · intro key value holdsKey holdsValue
    exact ⟨holdsKey, holdsValue⟩

/-! ## Wire form -/

mutual

/-- The bytes of a value with every map written in the order it is listed. -/
def wire : CborValue → Bytes
  | .unsigned value => Cbor.unsigned value
  | .negative value => Cbor.negative value
  | .bytes content => Cbor.bytes content
  | .text content => Cbor.text content
  | .array items => Cbor.array items.length ++ wireItems items
  | .map entries => Cbor.map entries.length ++ wireEntries entries
  | .tag tagNum inner => Cbor.tag tagNum ++ wire inner
  | .bool value => boolean value
  | .null => Cbor.null
  | .float value => encodeMinimalFloat value

def wireItems : List CborValue → Bytes
  | [] => []
  | item :: items => wire item ++ wireItems items

def wireEntries : List (CborValue × CborValue) → Bytes
  | [] => []
  | (key, value) :: entries => wire key ++ wire value ++ wireEntries entries

end

mutual

/-- Nesting of the innermost value; a scalar or an empty collection nests nothing. -/
def depth : CborValue → Nat
  | .array items => depthItems items
  | .map entries => depthEntries entries
  | .tag _ inner => depth inner + 1
  | _ => 0

def depthItems : List CborValue → Nat
  | [] => 0
  | item :: items => max (depth item + 1) (depthItems items)

def depthEntries : List (CborValue × CborValue) → Nat
  | [] => 0
  | (key, value) :: entries => max (max (depth key + 1) (depth value + 1)) (depthEntries entries)

end

mutual

/-- What the decoder accepts, nesting apart. -/
def Canonical : CborValue → Prop
  | .bytes content => content.length < 2 ^ 64
  | .text content => (textBytes content).length < 2 ^ 64
  | .array items => items.length < 2 ^ 64 ∧ CanonicalItems items
  | .map entries => entries.length < 2 ^ 64 ∧ CanonicalEntries entries ∧
      entries.Pairwise fun left right => compareCanonicalKeys left.1.wire right.1.wire = .lt
  | .tag _ _ => False
  | .float value => CanonicalFloat value
  | _ => True

def CanonicalItems : List CborValue → Prop
  | [] => True
  | item :: items => Canonical item ∧ CanonicalItems items

def CanonicalEntries : List (CborValue × CborValue) → Prop
  | [] => True
  | (key, value) :: entries => (Canonical key ∧ Canonical value) ∧ CanonicalEntries entries

end

theorem wireEntries_eq (entries : List (CborValue × CborValue)) :
    wireEntries entries = entries.flatMap fun entry => entry.1.wire ++ entry.2.wire := by
  induction entries with
  | nil => rfl
  | cons entry entries ih => rw [wireEntries, ih, flatMap_cons]

theorem canonicalItems_iff {items : List CborValue} :
    CanonicalItems items ↔ ∀ item ∈ items, item.Canonical := by
  induction items with
  | nil => simp [CanonicalItems]
  | cons item items ih => rw [CanonicalItems, ih, forall_mem_cons]

theorem canonicalEntries_iff {entries : List (CborValue × CborValue)} :
    CanonicalEntries entries ↔ ∀ entry ∈ entries, entry.1.Canonical ∧ entry.2.Canonical := by
  induction entries with
  | nil => simp [CanonicalEntries]
  | cons entry entries ih => rw [CanonicalEntries, ih, forall_mem_cons]

theorem depthItems_lt {items : List CborValue} {levels : Nat} :
    depthItems items < levels + 1 ↔ ∀ item ∈ items, item.depth < levels := by
  induction items with
  | nil => simp [depthItems]
  | cons item items ih => rw [depthItems, forall_mem_cons, ← ih]; omega

theorem depthEntries_lt {entries : List (CborValue × CborValue)} {levels : Nat} :
    depthEntries entries < levels + 1 ↔ ∀ entry ∈ entries, entry.1.depth < levels ∧ entry.2.depth < levels := by
  induction entries with
  | nil => simp [depthEntries]
  | cons entry entries ih => rw [depthEntries, forall_mem_cons, ← ih]; omega

theorem length_wire_pos (value : CborValue) : 1 ≤ value.wire.length := by
  have headed (kind : Nat) (count : UInt64) (tail : Bytes) : 1 ≤ (major kind count ++ tail).length := by
    rw [length_append]
    exact Nat.le_add_right_of_le (length_major_pos kind count)
  cases value with
  | unsigned value => exact length_major_pos 0 value
  | negative value => exact length_major_pos 1 value
  | bytes content | text content => exact headed ..
  | array items | map entries => exact headed ..
  | tag tagNum inner => exact headed ..
  | bool value => cases value <;> decide
  | null => decide
  | float value => exact length_encode_pos (.float value)

end CborValue

/-! ## One item at a time -/

/-- The rest of a value whose item has been read, with `read` for the members. -/
def contents (read : ItemReader CborValue) : Item → ItemReader CborValue
  | .unsigned value => pure (.unsigned value)
  | .negative value => pure (.negative value)
  | .bytes content => pure (.bytes content)
  | .text content => pure (.text content)
  | .array count => do return .array (← many read count.toNat)
  | .map count => do return .map (← decodeEntries read count.toNat none)
  | .bool value => pure (.bool value)
  | .null => pure .null
  | .float value => pure (.float value)

theorem decodeBody_eq (read : ItemReader CborValue) (initial : UInt8) {kind : Nat}
    (untagged : kind ≠ 6) (argument : UInt64) :
    decodeBody read initial kind argument = readBody initial kind argument >>= contents read := by
  unfold decodeBody readBody
  split
  case h_4 =>
    simp only [Reader.bind_assoc]
    congr 1
    funext length
    congr 1
    funext content
    cases String.fromUTF8? ⟨content.toArray⟩ with
    | some content | none => rfl
  case h_7 => exact absurd rfl untagged
  case h_8 => simp only; rfl
  all_goals simp only [checkedLen, Reader.bind_assoc, Reader.pure_bind, contents]

variable {initial : UInt8} {value : CborValue}

theorem decodeSimple_eq (read : ItemReader CborValue) (longer : initial.toNat % 32 ≠ 24) :
    decodeSimple initial = readSimple initial >>= contents read := by
  unfold decodeSimple readSimple
  generalize initial.toNat % 32 = low at longer ⊢
  split
  case h_7 => exact absurd rfl longer
  case h_8 => rfl
  case h_9 => first | rfl | (simp only; rfl)
  all_goals simp only [Reader.bind_assoc, Reader.pure_bind, contents]

theorem decodeSimple_of_byte (byte : initial.toNat % 32 = 24) (input : Bytes) {rest : Bytes} :
    decodeSimple initial input ≠ .ok (value, rest) := by
  rw [decodeSimple, byte]
  simp only [ne_eq, bind_eq_ok, fail_eq_ok, and_false, exists_false, not_false_eq_true]

theorem decodeBody_tag (read : ItemReader CborValue) (initial : UInt8) (argument : UInt64)
    (input : Bytes) {rest : Bytes} :
    decodeBody read initial 6 argument input ≠ .ok (value, rest) := by
  simp only [decodeBody, tagAllowlist, not_mem_nil, ne_eq, bind_eq_ok, require_eq_ok,
    false_and, exists_false, not_false_eq_true]

theorem eq_simpleByte_iff (simple : initial.toNat / 32 = 7) : initial = 0xf8 ↔ initial.toNat % 32 = 24 := by
  rw [← UInt8.toNat_inj]
  have bits : (0xf8 : UInt8).toNat = 248 := rfl
  omega

theorem decodeValue_succ_eq_ok {levels : Nat} {input rest : Bytes} :
    decodeValue (levels + 1) input = .ok (value, rest) ↔
      ∃ item middle, input = item.encode ++ middle ∧ item.Readable middle ∧
        contents (decodeValue levels) item middle = .ok (value, rest) := by
  have split : decodeValue (levels + 1) input = .ok (value, rest) ↔
      (∃ item middle, readItem input = .ok (item, middle) ∧
        contents (decodeValue levels) item middle = .ok (value, rest)) ∧
      input.head? ≠ some 0xf8 := by
    rw [← bind_eq_ok]
    cases input with
    | nil => simp [decodeValue, readItem, bind, peek]
    | cons initial tail =>
      have peeked : peek CborError.unexpectedEof (initial :: tail) = .ok (initial, initial :: tail) :=
        rfl
      rw [decodeValue, readItem, bind_of_ok peeked, Reader.bind_assoc, bind_of_ok peeked, List.head?_cons]
      split_ifs with simple
      · rw [Reader.bind_assoc, bind_of_ok (next_cons _ initial tail),
          bind_of_ok (next_cons _ initial tail), ne_eq, Option.some.injEq, eq_simpleByte_iff simple]
        by_cases byte : initial.toNat % 32 = 24
        · exact iff_of_false (decodeSimple_of_byte byte tail) fun both => both.2 byte
        · rw [decodeSimple_eq (decodeValue levels) byte, and_iff_left byte]
      · have notByte : ¬some initial = some 0xf8 := by
          rintro ⟨rfl⟩
          exact simple (by decide)
        rw [Reader.bind_assoc, and_iff_left notByte]
        cases header : decodeHeader (initial :: tail) with
        | error fault => simp only [bind, header]
        | ok found =>
          obtain ⟨⟨kind, argument⟩, middle⟩ := found
          rw [bind_of_ok header, bind_of_ok header]
          dsimp only
          by_cases tagged : kind = 6
          · subst tagged
            refine iff_of_false (decodeBody_tag _ _ _ _) ?_
            simp [readBody, bind_eq_ok]
          · rw [decodeBody_eq _ _ tagged]
  rw [split]
  constructor
  · rintro ⟨⟨item, middle, read, members⟩, notByte⟩
    obtain ⟨whole, readable⟩ | ⟨_, _, rfl, _⟩ := readItem_eq_ok.mp read
    · exact ⟨item, middle, whole, readable, members⟩
    · exact absurd rfl notByte
  · rintro ⟨item, middle, rfl, readable, members⟩
    refine ⟨⟨item, middle, readItem_encode readable, members⟩, ?_⟩
    obtain ⟨initial, tail, encoded, notByte⟩ := encode_eq_cons item
    rw [encoded, cons_append, List.head?_cons]
    exact fun same => notByte (Option.some.inj same)

/-! ## Exactness of the decoder -/

/-- The reader accepts the wire form of the values that meet `holds`, and nothing else. -/
def Exact (read : ItemReader CborValue) (holds : CborValue → Prop) : Prop :=
  ∀ {input rest : Bytes} {value : CborValue},
    read input = .ok (value, rest) ↔ holds value ∧ input = value.wire ++ rest

section Members

variable {read : ItemReader CborValue} {holds : CborValue → Prop}

theorem many_eq_ok (exactly : Exact read holds) {count : Nat} {input rest : Bytes}
    {items : List CborValue} :
    many read count input = .ok (items, rest) ↔ items.length = count ∧ (∀ item ∈ items, holds item) ∧
        input = wireItems items ++ rest := by
  induction count generalizing input items with
  | zero =>
    rw [many, pure_eq_ok, length_eq_zero_iff]
    constructor
    · rintro ⟨rfl, rfl⟩
      exact ⟨rfl, forall_mem_nil _, rfl⟩
    · rintro ⟨rfl, _, rfl⟩
      exact ⟨rfl, rfl⟩
  | succ count ih =>
    simp only [many, bind_eq_ok, pure_eq_ok]
    constructor
    · rintro ⟨item, middle, first, items, _, others, rfl, rfl⟩
      obtain ⟨rfl, each, rfl⟩ := ih.mp others
      obtain ⟨holdsItem, rfl⟩ := exactly.mp first
      refine ⟨rfl, forall_mem_cons.mpr ⟨holdsItem, each⟩, ?_⟩
      rw [wireItems, append_assoc]
    · rintro ⟨length, each, rfl⟩
      cases items with
      | nil => cases length
      | cons item items =>
        obtain ⟨holdsItem, each⟩ := forall_mem_cons.mp each
        refine ⟨item, wireItems items ++ rest, exactly.mpr ⟨holdsItem, ?_⟩, items, rest,
          ih.mpr ⟨Nat.succ.inj length, each, rfl⟩, rfl, rfl⟩
        rw [wireItems, append_assoc]

theorem checkRawKey_eq_ok {previous : Option Bytes} {key : Bytes} {result : Unit} :
    checkRawKey previous key = .ok result ↔ ∀ raw ∈ previous, compareCanonicalKeys raw key = .lt := by
  cases previous with
  | none => simp [checkRawKey]
  | some raw =>
    cases order : compareCanonicalKeys raw key <;> simp [checkRawKey, order]

/-- Each key is compared with the one before it, so by transitivity with all before it. -/
theorem decodeEntries_eq_ok (exactly : Exact read holds) {count : Nat} {previous : Option Bytes}
    {input rest : Bytes} {entries : List (CborValue × CborValue)} :
    decodeEntries read count previous input = .ok (entries, rest) ↔
      entries.length = count ∧ (∀ entry ∈ entries, holds entry.1 ∧ holds entry.2) ∧
        (entries.Pairwise fun left right => compareCanonicalKeys left.1.wire right.1.wire = .lt) ∧
        (∀ raw ∈ previous, ∀ entry ∈ entries, compareCanonicalKeys raw entry.1.wire = .lt) ∧
        input = wireEntries entries ++ rest := by
  induction count generalizing previous input entries with
  | zero =>
    rw [decodeEntries, pure_eq_ok, length_eq_zero_iff]
    constructor
    · rintro ⟨rfl, rfl⟩
      exact ⟨rfl, forall_mem_nil _, .nil, fun _ _ => forall_mem_nil _, rfl⟩
    · rintro ⟨rfl, _, _, _, rfl⟩
      exact ⟨rfl, rfl⟩
  | succ count ih =>
    simp only [decodeEntries, bind_eq_ok, pure_eq_ok, Prod.exists, ofExcept_eq_ok]
    constructor
    · rintro ⟨key, raw, middle, readKey, _, _, ⟨checked, rfl⟩, value, after, readValue, entries,
        _, others, rfl, rfl⟩
      obtain ⟨rfl, each, ascending, later, rfl⟩ := ih.mp others
      obtain ⟨holdsValue, rfl⟩ := exactly.mp readValue
      obtain ⟨read, rfl⟩ := withConsumed_eq_ok.mp readKey
      obtain ⟨holdsKey, rfl⟩ := exactly.mp read
      rw [length_append, Nat.add_sub_cancel, take_left] at checked later
      have above := checkRawKey_eq_ok.mp checked
      refine ⟨rfl, forall_mem_cons.mpr ⟨⟨holdsKey, holdsValue⟩, each⟩,
        pairwise_cons.mpr ⟨later _ rfl, ascending⟩, fun raw known => ?_, ?_⟩
      · refine forall_mem_cons.mpr ⟨above raw known, fun entry member => ?_⟩
        exact compareCanonicalKeys_lt_trans (above raw known) (later _ rfl entry member)
      · simp only [wireEntries, append_assoc]
    · rintro ⟨length, each, ascending, above, rfl⟩
      cases entries with
      | nil => cases length
      | cons entry entries =>
        obtain ⟨key, value⟩ := entry
        obtain ⟨⟨holdsKey, holdsValue⟩, each⟩ := forall_mem_cons.mp each
        obtain ⟨later, ascending⟩ := pairwise_cons.mp ascending
        have readKey := withConsumed_of_ok (exactly.mpr ⟨holdsKey, rfl⟩ : read (key.wire ++
          (value.wire ++ (wireEntries entries ++ rest))) = .ok (key, _))
        refine ⟨key, key.wire, _, ?_, (), _,
          ⟨checkRawKey_eq_ok.mpr fun raw known => above raw known _ mem_cons_self, rfl⟩,
          value, _, exactly.mpr ⟨holdsValue, rfl⟩, entries, rest,
          ih.mpr ⟨Nat.succ.inj length, each, ascending, ?_, rfl⟩, rfl, rfl⟩
        · simp only [wireEntries, append_assoc]
          exact readKey
        · rintro _ ⟨⟩
          exact later

end Members

theorem CborValue.length_le_wireItems (items : List CborValue) : items.length ≤ (wireItems items).length := by
  induction items with
  | nil => exact Nat.le_refl 0
  | cons item items ih =>
    have positive := item.length_wire_pos
    rw [wireItems, length_append, length_cons]
    omega

theorem CborValue.length_le_wireEntries (entries : List (CborValue × CborValue)) :
    2 * entries.length ≤ (wireEntries entries).length := by
  induction entries with
  | nil => exact Nat.le_refl 0
  | cons entry entries ih =>
    have key := entry.1.length_wire_pos
    have value := entry.2.length_wire_pos
    rw [wireEntries, length_append, length_append, length_cons]
    omega

theorem decodeValue_exact (levels : Nat) :
    Exact (decodeValue levels) fun value => value.Canonical ∧ value.depth < levels := by
  induction levels with
  | zero =>
    intro input rest value
    exact iff_of_false (by simp [decodeValue]) fun both => absurd both.1.2 (Nat.not_lt_zero _)
  | succ levels ih =>
    intro input rest value
    rw [decodeValue_succ_eq_ok]
    constructor
    · rintro ⟨item, middle, rfl, readable, members⟩
      cases item with
      | array count =>
        simp only [contents, bind_eq_ok, pure_eq_ok] at members
        obtain ⟨items, _, read, rfl, rfl⟩ := members
        obtain ⟨length, each, rfl⟩ := (many_eq_ok ih).mp read
        refine ⟨⟨⟨length ▸ count.toNat_lt, ?_⟩, ?_⟩, ?_⟩
        · exact canonicalItems_iff.mpr fun item member => (each item member).1
        · exact depthItems_lt.mpr fun item member => (each item member).2
        · rw [Item.encode, wire, array, length, UInt64.ofNat_toNat, append_assoc]
      | map count =>
        simp only [contents, bind_eq_ok, pure_eq_ok] at members
        obtain ⟨entries, _, read, rfl, rfl⟩ := members
        obtain ⟨length, each, ascending, _, rfl⟩ := (decodeEntries_eq_ok ih).mp read
        refine ⟨⟨⟨length ▸ count.toNat_lt, ?_, ascending⟩, ?_⟩, ?_⟩
        · exact canonicalEntries_iff.mpr fun entry member =>
            (each entry member).imp And.left And.left
        · exact depthEntries_lt.mpr fun entry member =>
            (each entry member).imp And.right And.right
        · rw [Item.encode, wire, map, length, UInt64.ofNat_toNat, append_assoc]
      | _ =>
        obtain ⟨rfl, rfl⟩ := pure_eq_ok.mp members
        exact ⟨⟨readable, Nat.succ_pos levels⟩, rfl⟩
    · rintro ⟨⟨canonical, shallow⟩, rfl⟩
      cases value with
      | array items =>
        obtain ⟨fits, each⟩ := canonical
        have count : (UInt64.ofNat items.length).toNat = items.length :=
          UInt64.toNat_ofNat_of_lt' fits
        refine ⟨.array (UInt64.ofNat items.length), wireItems items ++ rest, append_assoc .., ?_, ?_⟩
        · rw [Item.Readable, count, length_append]
          exact Nat.le_add_right_of_le (length_le_wireItems items)
        · simp only [contents, bind_eq_ok, pure_eq_ok, count]
          refine ⟨items, rest, (many_eq_ok ih).mpr ⟨rfl, fun item member => ?_, rfl⟩, rfl, rfl⟩
          exact ⟨canonicalItems_iff.mp each item member, depthItems_lt.mp shallow item member⟩
      | map entries =>
        obtain ⟨fits, each, ascending⟩ := canonical
        have count : (UInt64.ofNat entries.length).toNat = entries.length :=
          UInt64.toNat_ofNat_of_lt' fits
        refine ⟨.map (UInt64.ofNat entries.length), wireEntries entries ++ rest, append_assoc .., ?_, ?_⟩
        · have long := length_le_wireEntries entries
          rw [Item.Readable, count, length_append]
          omega
        · simp only [contents, bind_eq_ok, pure_eq_ok, count]
          refine ⟨entries, rest, (decodeEntries_eq_ok ih).mpr ⟨rfl, fun entry member => ?_,
            ascending, by simp, rfl⟩, rfl, rfl⟩
          have canonical := canonicalEntries_iff.mp each entry member
          have shallow := depthEntries_lt.mp shallow entry member
          exact ⟨⟨canonical.1, shallow.1⟩, canonical.2, shallow.2⟩
      | tag tagNum inner => exact canonical.elim
      | unsigned value => exact ⟨.unsigned value, rest, rfl, trivial, rfl⟩
      | negative value => exact ⟨.negative value, rest, rfl, trivial, rfl⟩
      | bytes content => exact ⟨.bytes content, rest, rfl, canonical, rfl⟩
      | text content => exact ⟨.text content, rest, rfl, canonical, rfl⟩
      | bool value => exact ⟨.bool value, rest, rfl, trivial, rfl⟩
      | null => exact ⟨.null, rest, rfl, trivial, rfl⟩
      | float value => exact ⟨.float value, rest, rfl, canonical, rfl⟩

theorem CborValue.fromCanonicalBytes_eq_ok {input : Bytes} : fromCanonicalBytes input = .ok value ↔
      value.Canonical ∧ value.depth ≤ maxDepth ∧ input = value.wire := by
  have split : fromCanonicalBytes input = .ok value ↔ decodeValue (maxDepth + 1) input = .ok (value, []) := by
    rw [fromCanonicalBytes]
    cases decodeValue (maxDepth + 1) input with
    | error fault => simp
    | ok found =>
      obtain ⟨found, rest⟩ := found
      cases rest with
      | nil | cons byte rest => simp
  rw [split, decodeValue_exact, append_nil, and_assoc, Nat.lt_succ_iff]

end Ldgr.Format.Cbor
