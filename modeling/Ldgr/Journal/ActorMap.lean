import Ldgr.Format.Cbor.ValueProperties
import Ldgr.Journal.Segment.FramesProperties

/-! Maps keyed by actors: ascending actors are exactly the canonical order of their keys. -/

namespace Ldgr

open Base Format Format.Cbor CborValue

theorem toUInt64_toUInt32 {word : UInt64} (small : word.toNat < 2 ^ 32) : word.toUInt32.toUInt64 = word := by
  rw [← UInt64.toNat_inj, UInt32.toNat_toUInt64, UInt64.toNat_toUInt32, Nat.mod_eq_of_lt small]

theorem toNat_toUInt64_lt (word : UInt32) : word.toUInt64.toNat < 2 ^ 32 := by
  rw [UInt32.toNat_toUInt64]
  exact word.toNat_lt

theorem ActorId.lt_iff_key {left right : ActorId} :
    compareCanonicalKeys (unsigned left.id.toUInt64) (unsigned right.id.toUInt64) = .lt ↔ left < right := by
  have widened {first second : ActorId} (below : first < second) :
      compareCanonicalKeys (unsigned first.id.toUInt64) (unsigned second.id.toUInt64) = .lt := by
    apply compareCanonicalKeys_unsigned
    rw [UInt64.lt_iff_toNat_lt, UInt32.toNat_toUInt64, UInt32.toNat_toUInt64]
    exact ActorId.lt_iff.mp below
  refine ⟨fun before => ?_, widened⟩
  rcases lt_trichotomy left right with below | same | above
  · exact below
  · subst same
    exact absurd rfl (compareCanonicalKeys_ne before)
  · exact absurd rfl (compareCanonicalKeys_ne (compareCanonicalKeys_lt_trans before (widened above)))

section

variable {α : Type} {entries : List (ActorId × α)} (encode : α → CborValue)

def actorMap (entries : List (ActorId × α)) : CborValue :=
  .map (entries.map fun entry => (.unsigned entry.1.id.toUInt64, encode entry.2))

variable {encode}

theorem canonical_actorMap : (actorMap encode entries).Canonical ↔
      (entries.Pairwise fun left right => left.1 < right.1) ∧
        ∀ entry ∈ entries, (encode entry.2).Canonical := by
  have keys : (entries.map fun entry => (CborValue.unsigned entry.1.id.toUInt64, encode entry.2)).Pairwise
      (fun left right => compareCanonicalKeys left.1.wire right.1.wire = .lt) ↔
      entries.Pairwise fun left right => left.1 < right.1 := by
    simp only [List.pairwise_map, CborValue.wire, ActorId.lt_iff_key]
  have values : CborValue.CanonicalEntries
      (entries.map fun entry => (CborValue.unsigned entry.1.id.toUInt64, encode entry.2)) ↔
      ∀ entry ∈ entries, (encode entry.2).Canonical := by
    rw [CborValue.canonicalEntries_iff, List.forall_mem_map]
    simp only [CborValue.Canonical, true_and]
  rw [actorMap, CborValue.Canonical, keys, values, List.length_map]
  constructor
  · exact fun accepted => ⟨accepted.2.2, accepted.2.1⟩
  · intro accepted
    have few := length_le_of_ascending accepted.1
    exact ⟨by omega, accepted.2, accepted.1⟩

theorem depth_actorMap_le (flat : ∀ value, (encode value).depth = 0) : (actorMap encode entries).depth ≤ 1 := by
  rw [← Nat.lt_succ_iff, actorMap, depth, depthEntries_lt, List.forall_mem_map]
  intro entry _
  exact ⟨Nat.one_pos, by rw [flat]; exact Nat.one_pos⟩

end

/-! ## Clocks -/

namespace VectorClock

theorem wire_actorMap (clock : VectorClock) :
    (actorMap .unsigned clock.components.entries).wire = clock.encode := by
  rw [actorMap, wire, wireEntries_eq, List.length_map, List.flatMap_map]
  rfl

end VectorClock

theorem decodeClockPair_eq_ok {pair : CborValue × CborValue} {component : ActorId × UInt64} :
    decodeClockPair pair = .ok component ↔
      pair = (.unsigned component.1.id.toUInt64, .unsigned component.2) := by
  constructor
  · intro decoded
    unfold decodeClockPair at decoded
    split at decoded
    · split_ifs at decoded with small
      obtain rfl := Except.ok.inj decoded
      rw [toUInt64_toUInt32 small]
    · split_ifs at decoded
    · cases decoded
  · rintro rfl
    exact decodeClockPair_component component

theorem mapM_decodeClockPair_eq_ok {pairs : List (CborValue × CborValue)}
    {entries : List (ActorId × UInt64)} :
    pairs.mapM decodeClockPair = .ok entries ↔ map pairs = actorMap .unsigned entries := by
  rw [except_mapM_eq_ok, actorMap, map.injEq]
  simp only [decodeClockPair_eq_ok]
  rw [← List.forall₂_map_right_iff, List.forall₂_eq_eq_eq]

end Ldgr
