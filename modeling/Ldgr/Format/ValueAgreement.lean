import Ldgr.Format.Cbor.ValueProperties
import Ldgr.Format.ValueProperties

/-! The two readers of canonical values: through the CBOR tree and straight off the items. -/

namespace Ldgr.Format

open Ldgr.Base Ldgr.Format.Cbor Budget List CborValue

namespace CanonicalValue

mutual

def fromCbor (value : CborValue) (budget : Budget) : Except ValueError (CanonicalValue × Budget) := do
  let budget ← budget.visit
  match value with
  | .unsigned value => pure (.unsigned value, budget)
  | .negative value => pure (.negative value, budget)
  | .bytes content => do
      budget.string content.length
      pure (.bytes content, budget)
  | .text content => do
      budget.string (textBytes content).length
      pure (.text content, budget)
  | .array items => do
      let budget ← budget.collection items.length
      let (items, budget) ← fromItems items budget
      pure (.array items, budget)
  | .map entries => do
      let budget ← budget.collection entries.length
      let (entries, budget) ← fromEntries entries budget
      pure (.map entries, budget)
  | .bool value => pure (.bool value, budget)
  | .null => pure (.null, budget)
  | .float value =>
    if value.isNaN || isNegativeZero value then
      throw (.boundsExceeded "floats must not be NaN or negative zero")
    else
      pure (.float value, budget)
  | .tag _ _ => throw (.boundsExceeded "canonical values must not carry semantic tags")

def fromItems : List CborValue → Budget → Except ValueError (List CanonicalValue × Budget)
  | [], budget => pure ([], budget)
  | item :: items, budget => do
      let (first, budget) ← fromCbor item budget
      let (rest, budget) ← fromItems items budget
      pure (first :: rest, budget)

def fromEntries : List (CborValue × CborValue) → Budget →
    Except ValueError (List (CanonicalValue × CanonicalValue) × Budget)
  | [], budget => pure ([], budget)
  | (key, value) :: entries, budget => do
      let (key, budget) ← fromCbor key budget
      let (value, budget) ← fromCbor value budget
      let (rest, budget) ← fromEntries entries budget
      pure ((key, value) :: rest, budget)

end

def fromCanonicalBytes (input : Bytes) : Except ValueError CanonicalValue := do
  let value ← (CborValue.fromCanonicalBytes input).mapError .cbor
  let (parsed, _) ← fromCbor value {}
  pure parsed

mutual

def toCbor : CanonicalValue → CborValue
  | .unsigned value => .unsigned value
  | .negative value => .negative value
  | .bytes content => .bytes content
  | .text content => .text content
  | .array items => .array (toItems items)
  | .map entries => .map (toEntries entries)
  | .bool value => .bool value
  | .null => .null
  | .float value => .float value

def toItems : List CanonicalValue → List CborValue
  | [] => []
  | item :: items => toCbor item :: toItems items

def toEntries : List (CanonicalValue × CanonicalValue) → List (CborValue × CborValue)
  | [] => []
  | (key, value) :: entries => (toCbor key, toCbor value) :: toEntries entries

end

theorem toItems_eq (items : List CanonicalValue) : toItems items = items.map toCbor := by
  induction items with
  | nil => rfl
  | cons item items ih => rw [toItems, ih, map_cons]

theorem toEntries_eq (entries : List (CanonicalValue × CanonicalValue)) :
    toEntries entries = entries.map fun entry => (entry.1.toCbor, entry.2.toCbor) := by
  induction entries with
  | nil => rfl
  | cons entry entries ih => rw [toEntries, ih, map_cons]

theorem wire_toCbor (value : CanonicalValue) : value.toCbor.wire = value.encoding := by
  induction value using CanonicalValue.induction with
  | array items each =>
    have members : wireItems (toItems items) = encodingItems items := by
      induction items with
      | nil => rfl
      | cons item items ih =>
        obtain ⟨first, others⟩ := forall_mem_cons.mp each
        rw [toItems, wireItems, encodingItems, first, ih others]
    rw [toCbor, wire, encoding, members, toItems_eq, length_map]
  | map entries each =>
    have members : wireEntries (toEntries entries) = encodingEntries entries := by
      induction entries with
      | nil => rfl
      | cons entry entries ih =>
        obtain ⟨first, others⟩ := forall_mem_cons.mp each
        rw [toEntries, wireEntries, encodingEntries, first.1, first.2, ih others]
    rw [toCbor, wire, encoding, members, toEntries_eq, length_map]
  | _ => rfl

theorem depth_toCbor (value : CanonicalValue) : value.toCbor.depth < value.visits := by
  induction value using CanonicalValue.induction with
  | array items each =>
    have members : depthItems (toItems items) ≤ visitsItems items := by
      induction items with
      | nil => exact Nat.le_refl 0
      | cons item items ih =>
        obtain ⟨first, others⟩ := forall_mem_cons.mp each
        have rest := ih others
        rw [toItems, CborValue.depthItems, visitsItems]
        omega
    rw [toCbor, CborValue.depth, visits]
    omega
  | map entries each =>
    have members : CborValue.depthEntries (toEntries entries) ≤ visitsEntries entries := by
      induction entries with
      | nil => exact Nat.le_refl 0
      | cons entry entries ih =>
        obtain ⟨first, others⟩ := forall_mem_cons.mp each
        have rest := ih others
        rw [toEntries, CborValue.depthEntries, visitsEntries]
        omega
    rw [toCbor, CborValue.depth, visits]
    omega
  | _ => exact Nat.one_pos

theorem keyBytes_eq (entries : List (CanonicalValue × CanonicalValue)) :
    keyBytes entries = (toEntries entries).map fun entry => entry.1.wire := by
  rw [keyBytes, toEntries_eq, map_map]
  exact map_congr_left fun entry _ => (wire_toCbor entry.1).symm

variable {value : CanonicalValue} {budget after : Budget}

theorem members_le {item : CanonicalValue} {items : List CanonicalValue} (member : item ∈ items) :
    item.members ≤ membersItems items := by
  rw [membersItems_eq]
  exact le_sum_of_mem (mem_map_of_mem member)

theorem canonical_toCbor (valid : value.Valid) (few : value.members < 2 ^ 64) : value.toCbor.Canonical := by
  induction value using CanonicalValue.induction with
  | array items each =>
    rw [Valid, validItems_iff] at valid
    rw [CanonicalValue.members] at few
    rw [toCbor, CborValue.Canonical, canonicalItems_iff, toItems_eq, length_map, forall_mem_map]
    refine ⟨by omega, fun item member => each item member (valid item member) ?_⟩
    exact (members_le member).trans_lt (by omega)
  | map entries each =>
    obtain ⟨valid, increasing⟩ := valid
    rw [validEntries_iff] at valid
    rw [CanonicalValue.members, membersEntries_eq] at few
    rw [keyBytes_eq] at increasing
    refine ⟨by rw [toEntries_eq, length_map]; omega, canonicalEntries_iff.mpr ?_, pairwise_map.mp increasing⟩
    rw [toEntries_eq, forall_mem_map]
    intro entry member
    have key := members_le (mem_map_of_mem (f := Prod.fst) member)
    have content := members_le (mem_map_of_mem (f := Prod.snd) member)
    exact ⟨(each entry member).1 (valid entry member).1 (by omega),
      (each entry member).2 (valid entry member).2 (by omega)⟩
  | bytes content | text content => exact Nat.lt_of_le_of_lt valid (by decide)
  | float value => exact valid
  | _ => trivial

/-! ## Conversion from the tree -/

theorem exists_toCbor {tree : CborValue} (canonical : tree.Canonical) : ∃ value : CanonicalValue,
    value.toCbor = tree := by
  induction tree using CborValue.induction with
  | array items each =>
    obtain ⟨parsed, same⟩ := (Set.range_list_map toCbor).ge fun item member =>
      each item member (canonicalItems_iff.mp canonical.2 item member)
    exact ⟨.array parsed, by rw [toCbor, toItems_eq, same]⟩
  | map entries each =>
    have members := canonicalEntries_iff.mp canonical.2.1
    obtain ⟨parsed, same⟩ := (Set.range_list_map (Prod.map toCbor toCbor)).ge fun entry member => by
      obtain ⟨key, sameKey⟩ := (each entry member).1 (members entry member).1
      obtain ⟨value, sameValue⟩ := (each entry member).2 (members entry member).2
      exact ⟨(key, value), Prod.ext sameKey sameValue⟩
    exact ⟨.map parsed, by rw [toCbor, toEntries_eq, ← same]; rfl⟩
  | tag tagNum inner ih => exact canonical.elim
  | unsigned value => exact ⟨.unsigned value, rfl⟩
  | negative value => exact ⟨.negative value, rfl⟩
  | bytes content => exact ⟨.bytes content, rfl⟩
  | text content => exact ⟨.text content, rfl⟩
  | bool value => exact ⟨.bool value, rfl⟩
  | null => exact ⟨.null, rfl⟩
  | float value => exact ⟨.float value, rfl⟩

/-- Conversion gives the value back exactly if it is valid and within the budget. -/
private def Converts (value : CanonicalValue) : Prop :=
  Spends (fromCbor value.toCbor) value value.Valid value.visits value.members

private theorem fromItems_spends {items : List CanonicalValue} (each : ∀ item ∈ items, Converts item) :
    Spends (fromItems (toItems items)) items (ValidItems items) (visitsItems items) (membersItems items) := by
  induction items with
  | nil => exact spends_pure []
  | cons item items ih =>
    obtain ⟨first, others⟩ := forall_mem_cons.mp each
    exact first.append (ih others) (· :: ·)

private theorem fromEntries_spends {entries : List (CanonicalValue × CanonicalValue)}
    (each : ∀ entry ∈ entries, Converts entry.1 ∧ Converts entry.2) :
    Spends (fromEntries (toEntries entries)) entries (ValidEntries entries) (visitsEntries entries)
      (membersEntries entries) := by
  induction entries with
  | nil => exact spends_pure []
  | cons entry entries ih =>
    obtain ⟨⟨first, second⟩, others⟩ := forall_mem_cons.mp each
    rw [visitsEntries, membersEntries, Nat.add_assoc, Nat.add_assoc]
    exact first.bind (fun key budget => do
      let (value, budget) ← fromCbor entry.2.toCbor budget
      let (rest, budget) ← fromEntries (toEntries entries) budget
      pure ((key, value) :: rest, budget)) (second.append (ih others) fun value rest => (entry.1, value) :: rest)

private theorem fromCbor_spends {value : CanonicalValue} (canonical : value.toCbor.Canonical) :
    Converts value := by
  induction value using CanonicalValue.induction with
  | array items each =>
    have length : (toItems items).length = items.length := by rw [toItems_eq, length_map]
    have members := canonicalItems_iff.mp canonical.2
    rw [toItems_eq, forall_mem_map] at members
    rw [Converts, Valid, visits, CanonicalValue.members, ← length]
    exact (fromItems_spends fun item member => each item member (members item member)).collect _ array
  | map entries each =>
    obtain ⟨_, canonical, ascending⟩ := canonical
    have length : (toEntries entries).length = entries.length := by rw [toEntries_eq, length_map]
    have members := canonicalEntries_iff.mp canonical
    rw [toEntries_eq, forall_mem_map] at members
    have increasing : (keyBytes entries).Pairwise fun left right => compareCanonicalKeys left right = .lt := by
      rw [keyBytes_eq]
      exact pairwise_map.mpr ascending
    rw [Converts, Valid, and_iff_left increasing, visits, CanonicalValue.members, ← length]
    exact (fromEntries_spends fun entry member =>
      ⟨(each entry member).1 (members entry member).1, (each entry member).2 (members entry member).2⟩).collect
      _ map
  | bytes content | text content =>
    intro budget _ after out
    simp only [toCbor, fromCbor, Valid, visits, members, visit_string_eq_ok]
  | float value =>
    intro budget _ after out
    simp only [toCbor, fromCbor, CanonicalFloat.number canonical, CanonicalFloat.notNegativeZero canonical,
      Bool.or_self, Bool.false_eq_true, if_false, visit_pure_eq_ok, Valid, visits, members]
    rw [and_iff_right (show CanonicalFloat value from canonical)]
  | _ =>
    intro budget _ after out
    simp only [toCbor, fromCbor, Valid, visits, members, visit_pure_eq_ok, true_and]

/-! ## The two readers -/

theorem fromCanonicalBytes_eq_ok {input : Bytes} :
    fromCanonicalBytes input = .ok value ↔ value.Encodable ∧ input = value.encoding := by
  have split : fromCanonicalBytes input = .ok value ↔
      ∃ tree after, CborValue.fromCanonicalBytes input = .ok tree ∧ fromCbor tree {} = .ok (value, after) := by
    rw [fromCanonicalBytes]
    cases CborValue.fromCanonicalBytes input with
    | error fault => exact iff_of_false nofun nofun
    | ok tree =>
      change (fromCbor tree {} >>= fun found => pure found.1) = _ ↔ _
      simp only [except_bind_eq_ok, Prod.exists]
      constructor
      · rintro ⟨_, after, converted, ⟨⟩⟩
        exact ⟨tree, after, rfl, converted⟩
      · rintro ⟨_, after, ⟨⟩, converted⟩
        exact ⟨value, after, converted, rfl⟩
  have start : ({} : Budget).Within := ⟨Nat.zero_le _, Nat.zero_le _⟩
  rw [split]
  constructor
  · rintro ⟨tree, after, decoded, converted⟩
    obtain ⟨canonical, _, rfl⟩ := CborValue.fromCanonicalBytes_eq_ok.mp decoded
    obtain ⟨_, rfl⟩ := exists_toCbor canonical
    obtain ⟨rfl, valid, rfl, within⟩ := (fromCbor_spends canonical {} start _ _).mp converted
    exact ⟨⟨valid, within⟩, wire_toCbor value⟩
  · rintro ⟨⟨valid, within⟩, rfl⟩
    have few : value.members < 2 ^ 64 := by
      have bounded := within.items
      have small : maxCanonicalValueItems < 2 ^ 64 := by decide
      simp only [spend] at bounded
      omega
    have canonical := canonical_toCbor valid few
    refine ⟨value.toCbor, _, CborValue.fromCanonicalBytes_eq_ok.mpr ⟨canonical, ?_, ?_⟩,
      (fromCbor_spends canonical {} start _ _).mpr ⟨rfl, valid, rfl, within⟩⟩
    · have shallow := value.depth_toCbor
      have bounded := within.depth
      have deeper : maxCanonicalValueDepth ≤ maxDepth := by decide
      simp only [spend] at bounded
      omega
    · exact (wire_toCbor value).symm

/-- The reader through the tree accepts what the item reader reads to the end, provided that it is
written in the encoder's items. -/
theorem fromCanonicalBytes_iff_readCanonicalValue {input : Bytes} (fits : input.length < 2 ^ 64)
    (value : CanonicalValue) :
    fromCanonicalBytes input = .ok value ↔ readCanonicalValue input = .ok (value, []) ∧ ItemSequence input := by
  rw [fromCanonicalBytes_eq_ok]
  constructor
  · rintro ⟨encodable, rfl⟩
    have read := readCanonicalValue_encoding encodable []
    rw [append_nil] at read
    exact ⟨read, encoding_items encodable.1⟩
  · rintro ⟨read, items⟩
    obtain ⟨⟨whole, _⟩, encodable⟩ := readCanonicalValue_exact ⟨items, fits⟩ read
    exact ⟨encodable, by rw [whole, append_nil]⟩

theorem shortForm_agrees :
    readCanonicalValue [0x18, 0x20] = .ok (.unsigned 32, []) ∧ ItemSequence [0x18, 0x20] :=
  (fromCanonicalBytes_iff_readCanonicalValue (by decide) (.unsigned 32)).mp rfl

/-- A one-byte simple value reads as an integer only off the items. -/
theorem simpleValue_disagrees : readCanonicalValue [0xf8, 0x20] = .ok (.unsigned 32, []) ∧
      fromCanonicalBytes [0xf8, 0x20] = .error (.cbor (.unsupportedType 0xf8)) :=
  ⟨rfl, rfl⟩

end CanonicalValue

end Ldgr.Format
