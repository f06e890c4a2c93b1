import Ldgr.Format.Cbor.Decode
import Ldgr.Format.Cbor.KeyOrder

/-! The tree decoder on encoded scalars, arrays and maps. -/

namespace Ldgr.Format.Cbor

open Ldgr.Base Reader List

/-! ## Values -/

theorem decodeValue_major (kind : Nat) (small : kind < 7) (levels : Nat) (value : UInt64)
    (tail : Bytes) : ∃ initial, decodeValue (levels + 1) (major kind value ++ tail) =
      decodeBody (decodeValue levels) initial kind value tail := by
  have header : decodeHeader (major kind value ++ tail) = .ok ((kind, value), tail) :=
    decodeHeader_eq_ok.mpr ⟨by omega, rfl⟩
  have additional := shortest_lt value.toNat
  have kindBits : (initialByte kind (shortest value.toNat).1).toNat / 32 ≠ 7 := by
    rw [initialByte_toNat (by omega) (by omega)]
    omega
  refine ⟨initialByte kind (shortest value.toNat).1, ?_⟩
  rw [major_eq, cons_append] at header ⊢
  rw [decodeValue, bind_of_ok (peek_eq_ok.mpr ⟨rfl, rfl⟩), if_neg kindBits, bind_of_ok header]

theorem decodeValue_unsigned (levels : Nat) (value : UInt64) (rest : Bytes) :
    decodeValue (levels + 1) (unsigned value ++ rest) = .ok (.unsigned value, rest) := by
  obtain ⟨initial, decoded⟩ := decodeValue_major 0 (by decide) levels value rest
  exact decoded

/-- The bytes of the members next to the values they decode to. -/
def Decodes (levels : Nat) (parts : List (CborValue × Bytes)) : Prop :=
  ∀ part ∈ parts, part.2 ≠ [] ∧ ∀ rest, decodeValue levels (part.2 ++ rest) = .ok (part.1, rest)

theorem Decodes.length_le {levels : Nat} {parts : List (CborValue × Bytes)}
    (decodes : Decodes levels parts) : parts.length ≤ (parts.flatMap Prod.snd).length := by
  induction parts with
  | nil => exact Nat.zero_le _
  | cons part parts ih =>
    have positive := length_pos_iff.mpr (decodes part mem_cons_self).1
    have rest := ih fun later member => decodes later (mem_cons_of_mem _ member)
    rw [length_cons, flatMap_cons, length_append]
    omega

/-- An encoded map entry: the key and the value, each next to its bytes. -/
abbrev EntryParts := (CborValue × Bytes) × (CborValue × Bytes)

def EntryParts.bytes (entry : EntryParts) : Bytes :=
  entry.1.2 ++ entry.2.2

section Entries

variable {levels : Nat} {entries : List EntryParts}
  (decodes : ∀ entry ∈ entries, Decodes levels [entry.1, entry.2])
  (ordered : entries.Pairwise fun earlier later => compareCanonicalKeys earlier.1.2 later.1.2 = .lt)

include decodes ordered

theorem decodeEntries_parts (previous : Option Bytes) (after : ∀ raw ∈ previous, ∀ entry ∈ entries,
      compareCanonicalKeys raw entry.1.2 = .lt) (rest : Bytes) :
    decodeEntries (decodeValue levels) entries.length previous (entries.flatMap EntryParts.bytes ++ rest) =
      .ok (entries.map fun entry => (entry.1.1, entry.2.1), rest) := by
  induction entries generalizing previous with
  | nil => rfl
  | cons entry entries ih =>
    obtain ⟨later, ordered⟩ := pairwise_cons.mp ordered
    have members := decodes entry mem_cons_self
    have key := (members entry.1 (by simp)).2 (entry.2.2 ++ (entries.flatMap EntryParts.bytes ++ rest))
    have value := (members entry.2 (by simp)).2 (entries.flatMap EntryParts.bytes ++ rest)
    have others := ih (fun other member => decodes other (mem_cons_of_mem _ member)) ordered
      (some entry.1.2) fun raw same other member => Option.some.inj same ▸ later other member
    have sorted : checkRawKey previous entry.1.2 = .ok () := by
      cases previous with
      | none => rfl
      | some raw => simp only [checkRawKey, after raw rfl entry mem_cons_self]
    simp only [length_cons, decodeEntries, flatMap_cons, EntryParts.bytes, append_assoc]
    rw [bind_of_ok (withConsumed_of_ok key)]
    simp only [sorted]
    rw [bind_of_ok (ofExcept_eq_ok.mpr ⟨rfl, rfl⟩), bind_of_ok value, bind_of_ok others]
    rfl

theorem decodeValue_map (fits : entries.length < 2 ^ 64) (rest : Bytes) :
    decodeValue (levels + 1) (map entries.length ++ (entries.flatMap EntryParts.bytes ++ rest)) =
      .ok (.map (entries.map fun entry => (entry.1.1, entry.2.1)), rest) := by
  have length : (UInt64.ofNat entries.length).toNat = entries.length :=
    UInt64.toNat_ofNat_of_lt' fits
  have long (entries : List EntryParts) (decodes : ∀ entry ∈ entries, Decodes levels [entry.1, entry.2]) :
      entries.length ≤ (entries.flatMap EntryParts.bytes).length := by
    induction entries with
    | nil => exact Nat.zero_le _
    | cons entry entries ih =>
      have positive := (decodes entry mem_cons_self).length_le
      have others := ih fun other member => decodes other (mem_cons_of_mem _ member)
      simp only [length_cons, length_nil, flatMap_cons, flatMap_nil,
        append_nil, EntryParts.bytes, length_append] at positive others ⊢
      omega
  obtain ⟨initial, decoded⟩ := decodeValue_major 5 (by decide) levels
    (UInt64.ofNat entries.length) (entries.flatMap EntryParts.bytes ++ rest)
  rw [map, decoded]
  simp only [decodeBody, bind_eq_ok, checkedLen_eq_ok, pure_eq_ok]
  refine ⟨_, _, ⟨length.symm, ?_, rfl⟩, _, _, ?_, rfl, rfl⟩
  · rw [length, length_append]
    exact Nat.le_add_right_of_le (long entries decodes)
  · exact decodeEntries_parts decodes ordered none (by simp) rest

end Entries

theorem fromCanonicalBytes_of_decodes {input : Bytes} {value : CborValue}
    (decoded : decodeValue (maxDepth + 1) input = .ok (value, [])) :
    CborValue.fromCanonicalBytes input = .ok value := by
  rw [CborValue.fromCanonicalBytes, decoded]
  rfl

end Ldgr.Format.Cbor
