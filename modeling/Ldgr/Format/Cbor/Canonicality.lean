import Ldgr.Format.Cbor.ValueProperties

/-! Canonical CBOR is exactly the image of the encoder. -/

namespace Ldgr.Format.Cbor

open Ldgr.Base List CborValue

namespace CborValue

/-! ## What is said of a value and of everything in it -/

mutual

def Everywhere (holds : CborValue → Prop) : CborValue → Prop
  | .array items => holds (.array items) ∧ EverywhereItems holds items
  | .map entries => holds (.map entries) ∧ EverywhereEntries holds entries
  | .tag tagNum inner => holds (.tag tagNum inner) ∧ Everywhere holds inner
  | value => holds value

def EverywhereItems (holds : CborValue → Prop) : List CborValue → Prop
  | [] => True
  | item :: items => Everywhere holds item ∧ EverywhereItems holds items

def EverywhereEntries (holds : CborValue → Prop) : List (CborValue × CborValue) → Prop
  | [] => True
  | (key, value) :: entries =>
    (Everywhere holds key ∧ Everywhere holds value) ∧ EverywhereEntries holds entries

end

def encoded (value : CborValue) : Bytes :=
  value.toCanonicalBytes.toOption.getD []

def MapAscending : CborValue → Prop
  | .map entries =>
    entries.Pairwise fun left right => compareCanonicalKeys left.1.encoded right.1.encoded = .lt
  | _ => True

def Untagged : CborValue → Prop
  | .tag _ _ => False
  | _ => True

mutual

def sorted : CborValue → CborValue
  | .array items => .array (sortedItems items)
  | .map entries => .map (((keyedEntries entries).insertionSort KeyLe).map Prod.snd)
  | .tag tagNum inner => .tag tagNum (sorted inner)
  | value => value

def sortedItems : List CborValue → List CborValue
  | [] => []
  | item :: items => sorted item :: sortedItems items

def keyedEntries : List (CborValue × CborValue) → List (Bytes × (CborValue × CborValue))
  | [] => []
  | (key, value) :: entries => (encoded key, (sorted key, sorted value)) :: keyedEntries entries

end

theorem everywhereItems_iff {holds : CborValue → Prop} {items : List CborValue} :
    EverywhereItems holds items ↔ ∀ item ∈ items, item.Everywhere holds := by
  induction items with
  | nil => simp [EverywhereItems]
  | cons item items ih => rw [EverywhereItems, ih, forall_mem_cons]

variable {entries : List (CborValue × CborValue)} {out : Bytes} {value : CborValue} {levels : Nat}

theorem everywhereEntries_iff {holds : CborValue → Prop} : EverywhereEntries holds entries ↔
      ∀ entry ∈ entries, entry.1.Everywhere holds ∧ entry.2.Everywhere holds := by
  induction entries with
  | nil => simp [EverywhereEntries]
  | cons entry entries ih => rw [EverywhereEntries, ih, forall_mem_cons]

theorem sortedItems_eq (items : List CborValue) : sortedItems items = items.map sorted := by
  induction items with
  | nil => rfl
  | cons item items ih => rw [sortedItems, ih, map_cons]

theorem keyedEntries_eq (entries : List (CborValue × CborValue)) : keyedEntries entries =
      entries.map fun entry => (entry.1.encoded, (entry.1.sorted, entry.2.sorted)) := by
  induction entries with
  | nil => rfl
  | cons entry entries ih => rw [keyedEntries, ih, map_cons]

theorem mem_sorted_map {entry : CborValue × CborValue}
    (member : entry ∈ ((keyedEntries entries).insertionSort KeyLe).map Prod.snd) :
    ∃ listed ∈ entries, entry = (listed.1.sorted, listed.2.sorted) := by
  obtain ⟨keyed, inSorted, rfl⟩ := mem_map.mp member
  rw [mem_insertionSort, keyedEntries_eq] at inSorted
  obtain ⟨listed, inEntries, rfl⟩ := mem_map.mp inSorted
  exact ⟨listed, inEntries, rfl⟩

/-! ## The encoder -/

theorem hasEqualKeys_eq_false {entries : List (Bytes × Bytes)} :
    hasEqualKeys entries = false ↔ entries.IsChain fun left right => left.1 ≠ right.1 := by
  induction entries with
  | nil => simp [hasEqualKeys]
  | cons first entries ih =>
    cases entries with
    | nil => simp [hasEqualKeys]
    | cons second entries =>
      rw [hasEqualKeys, Bool.or_eq_false_iff, ih, beq_eq_false_iff_ne, isChain_cons_cons]

theorem tryEncode_map_eq_ok : tryEncode (.map entries) = .ok out ↔ ∃ parts, encodeEntries entries = .ok parts ∧
      ((parts.insertionSort KeyLe).IsChain fun left right => left.1 ≠ right.1) ∧
      out = Cbor.map parts.length ++ (parts.insertionSort KeyLe).flatMap fun entry => entry.1 ++ entry.2 := by
  rw [tryEncode, except_bind_eq_ok]
  refine exists_congr fun parts => and_congr_right fun _ => ?_
  change (if hasEqualKeys (parts.insertionSort KeyLe) then _ else
    pure (Cbor.map (parts.insertionSort KeyLe).length ++
      (parts.insertionSort KeyLe).flatMap fun entry => entry.1 ++ entry.2)) = _ ↔ _
  rw [← hasEqualKeys_eq_false, length_insertionSort]
  cases hasEqualKeys (parts.insertionSort KeyLe) with
  | true => exact iff_of_false nofun fun both => absurd both.1 Bool.noConfusion
  | false =>
    rw [if_neg Bool.false_ne_true]
    exact ⟨fun same => ⟨rfl, (Except.ok.inj same).symm⟩, fun both => congrArg Except.ok both.2.symm⟩

theorem encodeEntries_of_each (each : ∀ entry ∈ entries, entry.1.tryEncode = .ok entry.1.wire ∧
      entry.2.tryEncode = .ok entry.2.wire) :
    encodeEntries entries = .ok (entries.map fun entry => (entry.1.wire, entry.2.wire)) := by
  induction entries with
  | nil => rfl
  | cons entry entries ih =>
    obtain ⟨first, others⟩ := forall_mem_cons.mp each
    rw [encodeEntries, first.1, first.2, ih others]
    rfl

theorem tryEncode_map_of_each {entries shuffled : List (CborValue × CborValue)}
    (each : ∀ entry ∈ entries, entry.1.tryEncode = .ok entry.1.wire ∧ entry.2.tryEncode = .ok entry.2.wire)
    (ascending : entries.Pairwise fun left right =>
      compareCanonicalKeys left.1.wire right.1.wire = .lt)
    (perm : shuffled.Perm entries) :
    tryEncode (.map shuffled) = .ok (map entries).wire := by
  have members := encodeEntries_of_each fun entry member => each entry (perm.mem_iff.mp member)
  have strict : (entries.map fun entry => (entry.1.wire, entry.2.wire)).Pairwise
      fun left right => compareCanonicalKeys left.1 right.1 = .lt := pairwise_map.mpr ascending
  have settled := insertionSort_of_perm strict (perm.map _)
  refine tryEncode_map_eq_ok.mpr ⟨_, members, ?_, ?_⟩
  · rw [settled]
    exact strict.isChain.imp fun _ _ => compareCanonicalKeys_ne
  · rw [settled, wire, wireEntries_eq, length_map, perm.length_eq, flatMap_map]

theorem tryEncode_of_canonical (canonical : value.Canonical) : value.tryEncode = .ok value.wire := by
  induction value using induction with
  | array items each =>
    have members (items : List CborValue)
        (each : ∀ item ∈ items, item.Canonical → item.tryEncode = .ok item.wire)
        (canonical : CanonicalItems items) : encodeItems items = .ok (wireItems items) := by
      induction items with
      | nil => rfl
      | cons item items ih =>
        obtain ⟨first, others⟩ := forall_mem_cons.mp each
        rw [encodeItems, first canonical.1, ih others canonical.2]
        rfl
    rw [tryEncode, members items each canonical.2]
    rfl
  | map entries each =>
    obtain ⟨_, canonical, ascending⟩ := canonical
    have canonical := canonicalEntries_iff.mp canonical
    exact tryEncode_map_of_each (fun entry member =>
      ⟨(each entry member).1 (canonical entry member).1,
        (each entry member).2 (canonical entry member).2⟩) ascending (.refl _)
  | tag tagNum inner ih => exact canonical.elim
  | float value =>
    rw [tryEncode, if_neg (by rw [canonical.1]; exact Bool.false_ne_true),
      if_neg (by rw [canonical.2]; exact Bool.false_ne_true)]
    rfl
  | _ => rfl

theorem tryEncode_map_of_perm {entries shuffled : List (CborValue × CborValue)}
    (canonical : (map entries).Canonical) (perm : shuffled.Perm entries) :
    tryEncode (.map shuffled) = .ok (map entries).wire := by
  have each := canonicalEntries_iff.mp canonical.2.1
  exact tryEncode_map_of_each (fun entry member =>
    ⟨tryEncode_of_canonical (each entry member).1, tryEncode_of_canonical (each entry member).2⟩)
    canonical.2.2 perm

theorem encoded_of_tryEncode (encodes : value.tryEncode = .ok out) : value.encoded = out := by
  rw [encoded, toCanonicalBytes, encodes]
  rfl

private def Sorts (value : CborValue) : Prop :=
  ∀ {out : Bytes}, value.tryEncode = .ok out → out.length < 2 ^ 64 →
    value.sorted.Canonical ∧ out = value.sorted.wire

private theorem encodeItems_sorted {items : List CborValue} (each : ∀ item ∈ items, Sorts item)
    (encodes : encodeItems items = .ok out) (fits : out.length < 2 ^ 64) :
    CanonicalItems (sortedItems items) ∧ out = wireItems (sortedItems items) := by
  induction items generalizing out with
  | nil =>
    cases encodes
    exact ⟨trivial, rfl⟩
  | cons item items ih =>
    simp only [encodeItems, except_bind_eq_ok] at encodes
    obtain ⟨first, encodesFirst, rest, encodesRest, ⟨⟩⟩ := encodes
    rw [length_append] at fits
    obtain ⟨eachFirst, eachRest⟩ := forall_mem_cons.mp each
    obtain ⟨canonical, rfl⟩ := eachFirst encodesFirst (by omega)
    obtain ⟨canonicalRest, rfl⟩ := ih eachRest encodesRest (by omega)
    exact ⟨⟨canonical, canonicalRest⟩, rfl⟩

private theorem encodeEntries_sorted (each : ∀ entry ∈ entries, Sorts entry.1 ∧ Sorts entry.2)
    {parts : List (Bytes × Bytes)} (encodes : encodeEntries entries = .ok parts)
    (fits : (parts.flatMap fun part => part.1 ++ part.2).length < 2 ^ 64) :
    (∀ row ∈ keyedEntries entries, row.1 = row.2.1.wire ∧ row.2.1.Canonical ∧ row.2.2.Canonical) ∧
      parts = (keyedEntries entries).map fun row => (row.2.1.wire, row.2.2.wire) := by
  induction entries generalizing parts with
  | nil =>
    cases encodes
    exact ⟨forall_mem_nil _, rfl⟩
  | cons entry entries ih =>
    simp only [encodeEntries, except_bind_eq_ok] at encodes
    obtain ⟨key, encodesKey, value, encodesValue, rest, encodesRest, ⟨⟩⟩ := encodes
    simp only [flatMap_cons, length_append] at fits
    obtain ⟨eachFirst, eachRest⟩ := forall_mem_cons.mp each
    obtain ⟨canonicalKey, rfl⟩ := eachFirst.1 encodesKey (by omega)
    obtain ⟨canonicalValue, rfl⟩ := eachFirst.2 encodesValue (by omega)
    obtain ⟨canonicalRest, rfl⟩ := ih eachRest encodesRest (by omega)
    exact ⟨forall_mem_cons.mpr ⟨⟨encoded_of_tryEncode encodesKey, canonicalKey, canonicalValue⟩,
      canonicalRest⟩, rfl⟩

theorem sorted_of_tryEncode (encodes : value.tryEncode = .ok out)
    (fits : out.length < 2 ^ 64) : value.sorted.Canonical ∧ out = value.sorted.wire := by
  induction value using induction generalizing out with
  | array items each =>
    simp only [tryEncode, except_bind_eq_ok] at encodes
    obtain ⟨body, encodesBody, ⟨⟩⟩ := encodes
    rw [length_append] at fits
    obtain ⟨canonical, rfl⟩ := encodeItems_sorted each encodesBody (by omega)
    have length : (sortedItems items).length = items.length := by
      rw [sortedItems_eq, length_map]
    have long := length_le_wireItems (sortedItems items)
    refine ⟨⟨by omega, canonical⟩, ?_⟩
    rw [sorted, wire, length]
  | map entries each =>
    obtain ⟨parts, encodesParts, distinct, rfl⟩ := tryEncode_map_eq_ok.mp encodes
    rw [length_append] at fits
    obtain ⟨rows, rfl⟩ := encodeEntries_sorted each encodesParts (by
      rw [← ((perm_insertionSort KeyLe parts).flatMap_right _).length_eq]
      omega)
    have ascending := ascending_of_sorted (pairwise_insertionSort KeyLe _) distinct
    rw [← map_insertionSort KeyLe KeyLe _ _ fun left inLeft right inRight => by
      simp only [KeyLe, (rows left inLeft).1, (rows right inRight).1]] at ascending fits ⊢
    have long := length_le_wireEntries (((keyedEntries entries).insertionSort KeyLe).map Prod.snd)
    simp only [wireEntries_eq, flatMap_map, length_map, length_insertionSort] at long fits
    simp only [sorted, wire, wireEntries_eq, flatMap_map, length_map, length_insertionSort, and_true]
    refine ⟨by rw [length_map, length_insertionSort]; omega, canonicalEntries_iff.mpr ?_,
      pairwise_map.mpr (pairwise_map.mp ascending)⟩
    intro entry member
    obtain ⟨row, inRows, rfl⟩ := mem_map.mp member
    exact (rows row ((mem_insertionSort KeyLe).mp inRows)).2
  | tag tagNum inner ih =>
    rw [tryEncode, tagAllowlist, if_neg not_mem_nil] at encodes
    cases encodes
  | bytes content | text content =>
    cases encodes
    simp only [Cbor.bytes, Cbor.text, length_append] at fits
    exact ⟨Nat.lt_of_le_of_lt (Nat.le_add_left _ _) fits, rfl⟩
  | float value =>
    rw [tryEncode] at encodes
    split_ifs at encodes with number negative
    cases encodes
    exact ⟨⟨Bool.eq_false_iff.mpr number, Bool.eq_false_iff.mpr negative⟩, rfl⟩
  | _ =>
    cases encodes
    exact ⟨trivial, rfl⟩

theorem everywhere_of_canonical (canonical : value.Canonical) :
    value.Everywhere MapAscending ∧ value.Everywhere Untagged := by
  have key {value : CborValue} (canonical : value.Canonical) : value.encoded = value.wire :=
    encoded_of_tryEncode (tryEncode_of_canonical canonical)
  induction value using induction with
  | array items each =>
    have members (item : CborValue) (member : item ∈ items) :=
      each item member (canonicalItems_iff.mp canonical.2 item member)
    exact ⟨⟨trivial, everywhereItems_iff.mpr fun item member => (members item member).1⟩,
      ⟨trivial, everywhereItems_iff.mpr fun item member => (members item member).2⟩⟩
  | map entries each =>
    obtain ⟨_, canonical, ascending⟩ := canonical
    have canonical := canonicalEntries_iff.mp canonical
    have members (entry : CborValue × CborValue) (member : entry ∈ entries) :=
      And.intro ((each entry member).1 (canonical entry member).1)
        ((each entry member).2 (canonical entry member).2)
    refine ⟨⟨?_, everywhereEntries_iff.mpr fun entry member =>
      ⟨(members entry member).1.1, (members entry member).2.1⟩⟩,
      ⟨trivial, everywhereEntries_iff.mpr fun entry member =>
        ⟨(members entry member).1.2, (members entry member).2.2⟩⟩⟩
    refine ascending.imp_of_mem fun {left right} inLeft inRight below => ?_
    rwa [key (canonical left inLeft).1, key (canonical right inRight).1]
  | tag tagNum inner ih => exact canonical.elim
  | _ => exact ⟨trivial, trivial⟩

theorem sorted_of_ascending (ascending : value.Everywhere MapAscending) : value.sorted = value := by
  induction value using induction with
  | array items each =>
    have members := everywhereItems_iff.mp ascending.2
    rw [sorted, sortedItems_eq, map_congr_left fun item member =>
      each item member (members item member), map_id']
  | map entries each =>
    obtain ⟨strict, members⟩ := ascending
    have members := everywhereEntries_iff.mp members
    have keyed : keyedEntries entries = entries.map fun entry => (entry.1.encoded, entry) := by
      rw [keyedEntries_eq]
      refine map_congr_left fun entry member => ?_
      rw [(each entry member).1 (members entry member).1, (each entry member).2 (members entry member).2]
    have ordered : (keyedEntries entries).Pairwise KeyLe := by
      rw [keyed]
      exact Cbor.sorted_of_ascending (pairwise_map.mpr strict)
    rw [sorted, ordered.insertionSort_eq, keyed, map_map]
    exact congrArg map (map_id' entries)
  | tag tagNum inner ih => rw [sorted, ih ascending.2]
  | _ => rfl

theorem depth_sorted (shallow : value.depth < levels) : value.sorted.depth < levels := by
  induction value using induction generalizing levels with
  | array items each =>
    obtain ⟨levels, rfl⟩ := Nat.exists_eq_add_one_of_ne_zero (Nat.ne_zero_of_lt shallow)
    have members := depthItems_lt.mp shallow
    rw [sorted, sortedItems_eq]
    refine depthItems_lt.mpr fun item member => ?_
    obtain ⟨listed, inItems, rfl⟩ := mem_map.mp member
    exact each listed inItems (members listed inItems)
  | map entries each =>
    obtain ⟨levels, rfl⟩ := Nat.exists_eq_add_one_of_ne_zero (Nat.ne_zero_of_lt shallow)
    have members := depthEntries_lt.mp shallow
    refine depthEntries_lt.mpr fun entry member => ?_
    obtain ⟨listed, inEntries, rfl⟩ := mem_sorted_map member
    exact ⟨(each listed inEntries).1 (members listed inEntries).1,
      (each listed inEntries).2 (members listed inEntries).2⟩
  | tag tagNum inner ih =>
    obtain ⟨levels, rfl⟩ := Nat.exists_eq_add_one_of_ne_zero (Nat.ne_zero_of_lt shallow)
    exact Nat.succ_lt_succ (ih (Nat.lt_of_succ_lt_succ shallow))
  | _ => exact shallow

/-- No map and no tag inside, and arrays nested at most `levels` deep. -/
def MapFree : Nat → CborValue → Prop
  | _, .map _ => False
  | _, .tag _ _ => False
  | 0, .array _ => False
  | levels + 1, .array items => ∀ item ∈ items, MapFree levels item
  | _, _ => True

theorem MapFree.sorted_eq (free : MapFree levels value) : value.sorted = value := by
  induction levels generalizing value with
  | zero => cases value <;> first | rfl | exact free.elim
  | succ levels ih =>
    cases value with
    | array items =>
      rw [sorted, sortedItems_eq, map_congr_left fun item member => ih (free item member), map_id']
    | map entries | tag tagNum inner => exact free.elim
    | _ => rfl

theorem MapFree.depth_le (free : MapFree levels value) : value.depth ≤ levels := by
  induction levels generalizing value with
  | zero => cases value <;> first | exact Nat.le_refl 0 | exact free.elim
  | succ levels ih =>
    cases value with
    | array items =>
      refine Nat.lt_succ_iff.mp (depthItems_lt.mpr fun item member => ?_)
      exact Nat.lt_succ_iff.mpr (ih (free item member))
    | map entries | tag tagNum inner => exact free.elim
    | _ => exact Nat.zero_le _

theorem MapFree.mono {levels more : Nat} (free : value.MapFree levels)
    (room : levels ≤ more) : value.MapFree more := by
  induction levels generalizing value more with
  | zero => cases value <;> first | exact free.elim | cases more <;> exact trivial
  | succ levels ih =>
    obtain ⟨more, rfl⟩ := Nat.exists_eq_add_one_of_ne_zero (Nat.ne_zero_of_lt room)
    cases value with
    | array items => exact fun item member => ih (free item member) (Nat.le_of_succ_le_succ room)
    | map entries | tag tagNum inner => exact free.elim
    | _ => exact trivial

/-- The decoder inverts the encoder on values that list their maps in order, and sorts the maps of
any other value; the bound on lengths is that of a buffer in memory. -/
theorem fromCanonicalBytes_image : (∀ (input : Bytes) (value : CborValue), input.length < 2 ^ 64 →
      (fromCanonicalBytes input = .ok value ↔
        value.Everywhere MapAscending ∧ value.Everywhere Untagged ∧ value.depth ≤ maxDepth ∧
          value.toCanonicalBytes = .ok input)) ∧
    ∀ (value : CborValue) (out : Bytes), value.toCanonicalBytes = .ok out → out.length < 2 ^ 64 →
      value.depth ≤ maxDepth → fromCanonicalBytes out = .ok value.sorted := by
  constructor
  · intro input value fits
    rw [fromCanonicalBytes_eq_ok]
    constructor
    · rintro ⟨canonical, shallow, rfl⟩
      obtain ⟨ascending, untagged⟩ := everywhere_of_canonical canonical
      exact ⟨ascending, untagged, shallow, tryEncode_of_canonical canonical⟩
    · rintro ⟨ascending, _, shallow, encodes⟩
      obtain ⟨canonical, written⟩ := sorted_of_tryEncode encodes fits
      rw [sorted_of_ascending ascending] at canonical written
      exact ⟨canonical, shallow, written⟩
  · intro value out encodes fits shallow
    obtain ⟨canonical, written⟩ := sorted_of_tryEncode encodes fits
    exact fromCanonicalBytes_eq_ok.mpr
      ⟨canonical, Nat.lt_succ_iff.mp (depth_sorted (Nat.lt_succ_iff.mpr shallow)), written⟩

/-- A map listed out of order comes back sorted. -/
theorem shuffled_sorted : fromCanonicalBytes [0xa2, 0x01, 0xf5, 0x18, 0x20, 0x80] =
      .ok (.map [(.unsigned 1, .bool true), (.unsigned 32, .array [])]) ∧
    toCanonicalBytes (.map [(.unsigned 32, .array []), (.unsigned 1, .bool true)]) =
      .ok [0xa2, 0x01, 0xf5, 0x18, 0x20, 0x80] :=
  ⟨fromCanonicalBytes_image.2 (.map [(.unsigned 32, .array []), (.unsigned 1, .bool true)]) _ rfl
    (by decide) (by decide), rfl⟩

end CborValue

end Ldgr.Format.Cbor
