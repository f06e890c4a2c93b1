import Ldgr.Format.Cbor.Canonicality
import Ldgr.Journal.ActorMap

/-! Run manifests: a canonical array of eight items, hashes framed. They survive their encoding: the
heads, held by ascending actor, are in canonical key order at every width of the keys. -/

namespace Ldgr.Format

open Ldgr.Base
open Cbor (CborValue)

def manifestFormatVersion : UInt32 := formatVersion

structure RunManifest where
  formatVersion : UInt32
  crashSemanticsVersion : UInt32
  executionIdentity : Option EntryHash
  rootSeed : EntryHash
  policyTag : String
  journalRoot : EntryHash
  entryCount : UInt64
  actorHeads : SortedMap ActorId EntryHash
  deriving DecidableEq

namespace RunManifest

def headEntry (head : ActorId × EntryHash) : CborValue × CborValue :=
  (.unsigned head.1.id.toUInt64, .bytes head.2.toFramedBytes)

/-- The heads go through the encoder of maps, which sorts them again. -/
def toCanonicalBytes (manifest : RunManifest) : Except CborError Bytes := do
  let identity := match manifest.executionIdentity with
    | some digest => encodeHash digest
    | none => Cbor.null
  let heads ← CborValue.tryEncode (.map (manifest.actorHeads.entries.map headEntry))
  pure (Cbor.array 8 ++ Cbor.unsigned manifest.formatVersion.toUInt64 ++
    Cbor.unsigned manifest.crashSemanticsVersion.toUInt64 ++ identity ++
    encodeHash manifest.rootSeed ++ Cbor.text manifest.policyTag ++ encodeHash manifest.journalRoot ++
    Cbor.unsigned manifest.entryCount ++ heads)

/-! ## Decoding -/

def decodeVersion (message : String) (current : UInt32) : CborValue → Except CborError UInt32
  | .unsigned version =>
    if version.toNat < 2 ^ 32 then
      if version.toUInt32 ≠ current then .error (.unsupportedVersion version.toUInt32)
      else .ok version.toUInt32
    else .error (.malformedManifest message)
  | _ => .error (.malformedManifest message)

/-- A framed hash; `unframed` and `other` tell what is wrong with other values. -/
def decodeHashItem (unframed other : String) : CborValue → Except CborError EntryHash
  | .bytes content => (EntryHash.fromFramedBytes content).mapError fun _ => .malformedManifest unframed
  | _ => .error (.malformedManifest other)

def decodeIdentity : CborValue → Except CborError (Option EntryHash)
  | .null => .ok none
  | value => do
      let digest ← decodeHashItem "execution_identity digest must be a 34-byte framed hash"
        "execution_identity must be null or a 34-byte framed hash" value
      pure (some digest)

def decodePolicy : CborValue → Except CborError String
  | .text policy => .ok policy
  | _ => .error (.malformedManifest "policy must be a text string")

def decodeEntryCount : CborValue → Except CborError UInt64
  | .unsigned count => .ok count
  | _ => .error (.malformedManifest "entry_count must be an unsigned integer")

def decodeActorKey : CborValue → Except CborError ActorId
  | .unsigned actor =>
    if actor.toNat < 2 ^ 32 then .ok ⟨actor.toUInt32⟩
    else .error (.malformedManifest "actor key must be an unsigned integer")
  | _ => .error (.malformedManifest "actor key must be an unsigned integer")

def decodeHead (entry : CborValue × CborValue) : Except CborError (ActorId × EntryHash) := do
  let actor ← decodeActorKey entry.1
  let hash ← decodeHashItem "actor hash must be a 34-byte framed hash"
    "actor hash must be a byte string" entry.2
  pure (actor, hash)

def decodeHeads : CborValue → Except CborError (SortedMap ActorId EntryHash)
  | .map entries => (entries.mapM decodeHead).map SortedMap.ofList
  | _ => .error (.malformedManifest "actor_heads must be a map")

def fromCanonicalBytes (input : Bytes) : Except CborError RunManifest := do
  match ← CborValue.fromCanonicalBytes input with
  | .array [format, crash, identity, seed, policy, root, count, heads] =>
    let formatVersion ← decodeVersion "item 0 must be the format version" manifestFormatVersion format
    let crashSemanticsVersion ← decodeVersion "item 1 must be the crash-semantics version"
      Format.crashSemanticsVersion crash
    let executionIdentity ← decodeIdentity identity
    let rootSeed ← decodeHashItem "root_seed must be a 34-byte framed hash"
      "root_seed must be a byte string" seed
    let policyTag ← decodePolicy policy
    let journalRoot ← decodeHashItem "journal_root must be a 34-byte framed hash"
      "journal_root must be a byte string" root
    let entryCount ← decodeEntryCount count
    let actorHeads ← decodeHeads heads
    pure { formatVersion, crashSemanticsVersion, executionIdentity, rootSeed, policyTag,
           journalRoot, entryCount, actorHeads }
  | .array _ => .error (.malformedManifest "array must hold exactly 8 items")
  | _ => .error (.malformedManifest "top-level item must be an array")

/-! ## Items -/

variable {value : CborValue}

theorem decodeVersion_eq_ok {message : String} {current version : UInt32} :
    decodeVersion message current value = .ok version ↔
      version = current ∧ value = .unsigned version.toUInt64 := by
  constructor
  · intro decoded
    unfold decodeVersion at decoded
    split at decoded
    · split_ifs at decoded with small stale
      obtain rfl := Except.ok.inj decoded
      exact ⟨not_not.mp stale, by rw [toUInt64_toUInt32 small]⟩
    · cases decoded
  · rintro ⟨rfl, rfl⟩
    rw [decodeVersion, if_pos (toNat_toUInt64_lt _), UInt32.toUInt32_toUInt64, if_neg (by simp)]

theorem decodeHashItem_eq_ok {unframed other : String} {hash : EntryHash} :
    decodeHashItem unframed other value = .ok hash ↔ value = .bytes hash.toFramedBytes := by
  cases value with
  | bytes content =>
    rw [decodeHashItem, CborValue.bytes.injEq, except_mapError_eq_ok, fromFramedBytes_eq_ok]
  | _ => simp [decodeHashItem]

def identityItem : Option EntryHash → CborValue
  | some digest => .bytes digest.toFramedBytes
  | none => .null

theorem decodeIdentity_eq_ok {identity : Option EntryHash} :
    decodeIdentity value = .ok identity ↔ value = identityItem identity := by
  have present {value : CborValue} : (do
      let digest ← decodeHashItem "execution_identity digest must be a 34-byte framed hash"
        "execution_identity must be null or a 34-byte framed hash" value
      pure (some digest) : Except CborError (Option EntryHash)) = .ok identity ↔
      ∃ digest, value = .bytes digest.toFramedBytes ∧ identity = some digest := by
    simp only [except_bind_eq_ok, decodeHashItem_eq_ok]
    exact exists_congr fun digest => and_congr_right fun _ =>
      ⟨fun same => (Except.ok.inj same).symm, fun same => same ▸ rfl⟩
  unfold decodeIdentity
  split
  · cases identity <;> simp [identityItem]
  · rename_i filled
    rw [present]
    cases identity with
    | none => simpa [identityItem] using filled
    | some digest => simp [identityItem]

theorem decodePolicy_eq_ok {policy : String} : decodePolicy value = .ok policy ↔ value = .text policy := by
  cases value <;> simp [decodePolicy]

theorem decodeEntryCount_eq_ok {count : UInt64} :
    decodeEntryCount value = .ok count ↔ value = .unsigned count := by
  cases value <;> simp [decodeEntryCount]

theorem decodeActorKey_eq_ok {actor : ActorId} :
    decodeActorKey value = .ok actor ↔ value = .unsigned actor.id.toUInt64 := by
  constructor
  · intro decoded
    unfold decodeActorKey at decoded
    split at decoded
    · split_ifs at decoded with small
      obtain rfl := Except.ok.inj decoded
      rw [toUInt64_toUInt32 small]
    · cases decoded
  · rintro rfl
    rw [decodeActorKey, if_pos (toNat_toUInt64_lt _), UInt32.toUInt32_toUInt64]

theorem decodeHead_eq_ok {entry : CborValue × CborValue} {head : ActorId × EntryHash} :
    decodeHead entry = .ok head ↔ entry = headEntry head := by
  simp only [decodeHead, except_bind_eq_ok, decodeActorKey_eq_ok, decodeHashItem_eq_ok]
  constructor
  · rintro ⟨actor, key, hash, framed, built⟩
    obtain rfl := Except.ok.inj built
    exact Prod.ext key framed
  · rintro rfl
    exact ⟨_, rfl, _, rfl, rfl⟩

/-! ## Heads -/

def headItem (hash : EntryHash) : CborValue :=
  .bytes hash.toFramedBytes

theorem canonical_headItem (hash : EntryHash) : (headItem hash).Canonical := by
  rw [headItem, CborValue.Canonical, EntryHash.toFramedBytes, List.length_cons, List.length_cons, hash.digest.2]
  decide

theorem canonical_heads (heads : SortedMap ActorId EntryHash) : (actorMap headItem heads.entries).Canonical :=
  canonical_actorMap.mpr ⟨heads.ascending, fun _ _ => canonical_headItem _⟩

theorem tryEncode_heads (heads : SortedMap ActorId EntryHash) :
    CborValue.tryEncode (.map (heads.entries.map headEntry)) = .ok (actorMap headItem heads.entries).wire :=
  CborValue.tryEncode_of_canonical (canonical_heads heads)

theorem decodeHeads_of_canonical {heads : SortedMap ActorId EntryHash} (canonical : value.Canonical) :
    decodeHeads value = .ok heads ↔ value = actorMap headItem heads.entries := by
  constructor
  · intro decoded
    unfold decodeHeads at decoded
    split at decoded
    · rename_i pairs
      cases listed : pairs.mapM decodeHead with
      | error fault =>
        rw [listed] at decoded
        cases decoded
      | ok entries =>
        rw [listed] at decoded
        obtain rfl := Except.ok.inj decoded
        rw [except_mapM_eq_ok] at listed
        simp only [decodeHead_eq_ok] at listed
        rw [← List.forall₂_map_right_iff, List.forall₂_eq_eq_eq] at listed
        subst listed
        have ascending := (canonical_actorMap.mp canonical : _ ∧ ∀ entry ∈ entries, (headItem entry.2).Canonical).1
        rw [SortedMap.entries_ofList ascending]
        rfl
    · cases decoded
  · rintro rfl
    have listed : (heads.entries.map headEntry).mapM decodeHead = .ok heads.entries := by
      rw [except_mapM_eq_ok]
      simp only [decodeHead_eq_ok]
      rw [← List.forall₂_map_right_iff, List.forall₂_eq_eq_eq]
    change ((heads.entries.map headEntry).mapM decodeHead).map SortedMap.ofList = _
    rw [listed]
    exact congrArg Except.ok (SortedMap.ofList_entries heads)

/-! ## The whole manifest -/

def toCbor (manifest : RunManifest) : CborValue :=
  .array [.unsigned manifest.formatVersion.toUInt64, .unsigned manifest.crashSemanticsVersion.toUInt64,
    identityItem manifest.executionIdentity, .bytes manifest.rootSeed.toFramedBytes,
    .text manifest.policyTag, .bytes manifest.journalRoot.toFramedBytes, .unsigned manifest.entryCount,
    actorMap headItem manifest.actorHeads.entries]

theorem toCanonicalBytes_eq (manifest : RunManifest) :
    manifest.toCanonicalBytes = .ok manifest.toCbor.wire := by
  rw [toCanonicalBytes, tryEncode_heads]
  simp only [toCbor, CborValue.wire, CborValue.wireItems, List.append_nil, except_ok_bind]
  cases manifest.executionIdentity with
  | none | some digest => simp [identityItem, CborValue.wire, encodeHash, pure, Except.pure]

theorem canonical_toCbor {manifest : RunManifest} :
    manifest.toCbor.Canonical ↔ (Cbor.textBytes manifest.policyTag).length < 2 ^ 64 := by
  have framed (hash : EntryHash) : (CborValue.bytes hash.toFramedBytes).Canonical :=
    canonical_headItem hash
  have identity : (identityItem manifest.executionIdentity).Canonical := by
    cases manifest.executionIdentity with
    | none => trivial
    | some digest => exact framed digest
  have heads := canonical_heads manifest.actorHeads
  constructor
  · exact fun canonical => canonical.2.2.2.2.2.1
  · exact fun fits => ⟨by simp, trivial, trivial, identity, framed _, fits, framed _, trivial, heads, trivial⟩

theorem depth_toCbor_le (manifest : RunManifest) : manifest.toCbor.depth ≤ Cbor.maxDepth := by
  have heads : (actorMap headItem manifest.actorHeads.entries).depth ≤ 1 :=
    depth_actorMap_le fun _ => rfl
  have identity : (identityItem manifest.executionIdentity).depth = 0 := by
    cases manifest.executionIdentity <;> rfl
  simp only [toCbor, CborValue.depth, CborValue.depthItems, identity, Cbor.maxDepth]
  omega

theorem fromCanonicalBytes_eq_ok {input : Bytes} {manifest : RunManifest} :
    fromCanonicalBytes input = .ok manifest ↔ (manifest.formatVersion = manifestFormatVersion ∧
        manifest.crashSemanticsVersion = Format.crashSemanticsVersion) ∧
      manifest.toCbor.Canonical ∧ input = manifest.toCbor.wire := by
  rw [fromCanonicalBytes, except_bind_eq_ok]
  constructor
  · rintro ⟨tree, parsed, decoded⟩
    obtain ⟨canonical, -, rfl⟩ := CborValue.fromCanonicalBytes_eq_ok.mp parsed
    split at decoded
    · rename_i format crash identity seed policy root count heads
      have last : heads.Canonical := canonical.2.2.2.2.2.2.2.2.1
      simp only [except_bind_eq_ok, decodeVersion_eq_ok, decodeIdentity_eq_ok, decodeHashItem_eq_ok,
        decodePolicy_eq_ok, decodeEntryCount_eq_ok, decodeHeads_of_canonical last] at decoded
      obtain ⟨_, ⟨version, rfl⟩, _, ⟨semantics, rfl⟩, _, rfl, _, rfl, _, rfl, _, rfl, _, rfl, _, rfl,
        built⟩ := decoded
      obtain rfl := Except.ok.inj built
      exact ⟨⟨version, semantics⟩, canonical, rfl⟩
    · cases decoded
    · cases decoded
  · rintro ⟨⟨version, semantics⟩, canonical, rfl⟩
    refine ⟨manifest.toCbor,
      CborValue.fromCanonicalBytes_eq_ok.mpr ⟨canonical, depth_toCbor_le manifest, rfl⟩, ?_⟩
    have last : (actorMap headItem manifest.actorHeads.entries).Canonical :=
      canonical_heads manifest.actorHeads
    simp only [toCbor, except_bind_eq_ok, decodeVersion_eq_ok, decodeIdentity_eq_ok,
      decodeHashItem_eq_ok, decodePolicy_eq_ok, decodeEntryCount_eq_ok, decodeHeads_of_canonical last]
    exact ⟨_, ⟨version, rfl⟩, _, ⟨semantics, rfl⟩, _, rfl, _, rfl, _, rfl, _, rfl, _, rfl, _, rfl, rfl⟩

/-- Every manifest of the current versions reads back from its bytes, whatever its actors; every
accepted input is the encoding of the manifest it decodes to. -/
theorem canonicalBytes_inverse : (∀ manifest : RunManifest, manifest.formatVersion = manifestFormatVersion →
      manifest.crashSemanticsVersion = Format.crashSemanticsVersion →
      (Cbor.textBytes manifest.policyTag).length < 2 ^ 64 →
        ∃ bytes, manifest.toCanonicalBytes = .ok bytes ∧ fromCanonicalBytes bytes = .ok manifest) ∧
    ∀ (input : Bytes) (manifest : RunManifest), fromCanonicalBytes input = .ok manifest →
      manifest.toCanonicalBytes = .ok input := by
  constructor
  · intro manifest version semantics fits
    exact ⟨_, toCanonicalBytes_eq manifest,
      fromCanonicalBytes_eq_ok.mpr ⟨⟨version, semantics⟩, canonical_toCbor.mpr fits, rfl⟩⟩
  · intro input manifest decoded
    obtain ⟨_, _, rfl⟩ := fromCanonicalBytes_eq_ok.mp decoded
    exact toCanonicalBytes_eq manifest

def twoHeads : RunManifest :=
  { formatVersion := manifestFormatVersion, crashSemanticsVersion := Format.crashSemanticsVersion,
    executionIdentity := none, rootSeed := zero, policyTag := "random", journalRoot := zero,
    entryCount := 2, actorHeads := SortedMap.ofList [(⟨300⟩, zero), (⟨5⟩, zero)] }
where
  zero : EntryHash := ⟨⟨List.replicate 32 0, length_zeros⟩⟩

theorem twoHeads_inverse :
    ∃ bytes, fromCanonicalBytes bytes = .ok twoHeads ∧ twoHeads.toCanonicalBytes = .ok bytes := by
  obtain ⟨bytes, _, decoded⟩ := canonicalBytes_inverse.1 twoHeads rfl rfl (by decide)
  exact ⟨bytes, decoded, canonicalBytes_inverse.2 bytes twoHeads decoded⟩

end RunManifest

end Ldgr.Format
