import Ldgr.Base.ByteReader
import Ldgr.Format.PayloadProperties
import Ldgr.Journal.Identity

/-! The identity decoder takes exactly the identities as they are laid out, digests in any order;
the encoder lays out the identity with its digests sorted. -/

namespace Ldgr

open Base Format Reader List

namespace ExecutionIdentity

/-! ## Layout -/

def Short (value : String) : Prop :=
  (Cbor.textBytes value).length ≤ maxIdentityFieldBytes

instance (value : String) : Decidable (Short value) :=
  inferInstanceAs (Decidable ((Cbor.textBytes value).length ≤ maxIdentityFieldBytes))

def layText (value : String) : Bytes :=
  leBytes 8 (Cbor.textBytes value).length ++ Cbor.textBytes value

def layOpt {α : Type} (lay : α → Bytes) : Option α → Bytes
  | some value => 1 :: lay value
  | none => [0]

def layHashes (hashes : List EntryHash) : Bytes :=
  leBytes 8 hashes.length ++ hashes.flatMap encodeHash

structure Within (identity : ExecutionIdentity) : Prop where
  engineRevision : ∀ value ∈ identity.engineRevision, Short value
  engineVersion : Short identity.engineVersion
  toolchain : Short identity.toolchain
  targetTriple : Short identity.targetTriple
  buildProfile : Short identity.buildProfile
  features : Short identity.features
  sutRevision : ∀ value ∈ identity.sutRevision, Short value
  workloadId : Short identity.workloadId
  inputDigests : identity.inputDigests.length ≤ maxIdentityInputDigests
  backend : Short identity.backend
  runtimeProfile : Short identity.runtimeProfile

/-- Every field in its place, the digests in the order they are listed. -/
def layout (identity : ExecutionIdentity) : Bytes :=
  layOpt layText identity.engineRevision ++ encodeBool identity.engineDirty ++
    layText identity.engineVersion ++ layText identity.toolchain ++ layText identity.targetTriple ++
    layText identity.buildProfile ++ layText identity.features ++
    encodeOptHash identity.lockfileDigest ++ layOpt layText identity.sutRevision ++
    encodeBool identity.sutDirty ++ encodeOptHash identity.sutArtifactDigest ++
    encodeOptHash identity.guestDigest ++ layText identity.workloadId ++
    encodeHash identity.programDigest ++ layHashes identity.inputDigests ++
    layText identity.backend ++ layText identity.runtimeProfile ++
    encodeHash identity.runConfigDigest ++ encodeHash identity.seedTreeRoot ++
    encodeOptHash identity.faultspecDigest ++ encodeOptU64 identity.oracleVersion ++
    encodeOptU64 identity.supportProviderVersion ++ encodeU32 identity.journalFormatVersion ++
    encodeU32 identity.crashSemanticsVersion ++ encodeU64 identity.resourceLimits.maxSteps

/-! ## Encoding -/

variable {result : Unit} {identity : ExecutionIdentity}

theorem checkStrLen_eq_ok {field value : String} : checkStrLen field value = .ok result ↔ Short value := by
  unfold checkStrLen Short
  split
  · rename_i long
    exact iff_of_false nofun (Nat.not_le.mpr long)
  · rename_i short
    exact iff_of_true rfl (Nat.not_lt.mp short)

theorem checkOptStrLen_eq_ok {field : String} {value : Option String} :
    checkOptStrLen field value = .ok result ↔ ∀ content ∈ value, Short content := by
  cases value with
  | none => simp [checkOptStrLen]
  | some content => simp [checkOptStrLen, checkStrLen_eq_ok]

theorem encodeLen_of_lt {length : Nat} {field : String} (fits : length < 2 ^ 64) :
    encodeLen length field = .ok (leBytes 8 length) :=
  if_pos fits

theorem encodeStr_of_short {value : String} (short : Short value) : encodeStr value = .ok (layText value) := by
  have fits : (Cbor.textBytes value).length < 2 ^ 64 := Nat.lt_of_le_of_lt short (by decide)
  have checked : checkStrLen "field" value = .ok () := checkStrLen_eq_ok.mpr short
  rw [encodeStr, checked, encodeLen_of_lt fits]
  rfl

theorem encodeOptStr_of_short {value : Option String} (short : ∀ content ∈ value, Short content) :
    encodeOptStr value = .ok (layOpt layText value) := by
  cases value with
  | none => rfl
  | some content =>
    rw [encodeOptStr, encodeStr_of_short (short content rfl)]
    rfl

theorem encodeHashes_of_few {hashes : List EntryHash} (few : hashes.length ≤ maxIdentityInputDigests) :
    encodeHashes hashes = .ok (layHashes (hashes.insertionSort (· ≤ ·))) := by
  have fits : (hashes.insertionSort (· ≤ ·)).length < 2 ^ 64 := by
    rw [length_insertionSort]
    exact Nat.lt_of_le_of_lt few (by decide)
  rw [encodeHashes, if_neg (Nat.not_lt.mpr few)]
  dsimp only
  rw [encodeLen_of_lt fits]
  rfl

def arranged (identity : ExecutionIdentity) : ExecutionIdentity :=
  { identity with inputDigests := identity.inputDigests.insertionSort (· ≤ ·) }

theorem checkLimits_eq_ok : checkLimits identity = .ok result ↔ identity.Within := by
  have counted : (if maxIdentityInputDigests < identity.inputDigests.length then
      .error (.invalidPayload "input_digests exceeds identity limit") else .ok () :
        Except JournalError Unit) = .ok result ↔
      identity.inputDigests.length ≤ maxIdentityInputDigests := by
    split
    · rename_i many
      exact iff_of_false nofun (Nat.not_le.mpr many)
    · rename_i few
      exact iff_of_true rfl (Nat.not_lt.mp few)
  simp only [checkLimits, except_bind_eq_ok, checkStrLen_eq_ok, checkOptStrLen_eq_ok, counted, exists_const]
  constructor
  · rintro ⟨version, chain, triple, profile, features, workload, backend, runtime, engine, sut, few⟩
    exact ⟨engine, version, chain, triple, profile, features, sut, workload, few, backend, runtime⟩
  · rintro ⟨engine, version, chain, triple, profile, features, sut, workload, few, backend, runtime⟩
    exact ⟨version, chain, triple, profile, features, workload, backend, runtime, engine, sut, few⟩

theorem canonicalBytes_of_within (within : identity.Within) :
    identity.canonicalBytes = .ok identity.arranged.layout := by
  have checked : checkLimits identity = .ok () := checkLimits_eq_ok.mpr within
  rw [canonicalBytes, checked, encodeOptStr_of_short within.engineRevision,
    encodeStr_of_short within.engineVersion, encodeStr_of_short within.toolchain,
    encodeStr_of_short within.targetTriple, encodeStr_of_short within.buildProfile,
    encodeStr_of_short within.features, encodeOptStr_of_short within.sutRevision,
    encodeStr_of_short within.workloadId, encodeHashes_of_few within.inputDigests,
    encodeStr_of_short within.backend, encodeStr_of_short within.runtimeProfile]
  rfl

theorem canonicalBytes_eq_ok {out : Bytes} :
    identity.canonicalBytes = .ok out ↔ identity.Within ∧ out = identity.arranged.layout := by
  constructor
  · intro encoded
    have within : identity.Within := by
      rw [canonicalBytes, except_bind_eq_ok] at encoded
      obtain ⟨_, checked, _⟩ := encoded
      exact checkLimits_eq_ok.mp checked
    rw [canonicalBytes_of_within within] at encoded
    exact ⟨within, (Except.ok.inj encoded).symm⟩
  · intro formed
    rw [formed.2, canonicalBytes_of_within formed.1]

/-! ## Decoding -/

end ExecutionIdentity

namespace IdentityDecoder

open ExecutionIdentity

variable {field : String}

theorem readFlag_takes {reason : String} : Takes (readFlag field reason) (fun _ => True) encodeBool := by
  refine takes_of_iff fun {input rest value} => ?_
  rw [readFlag, bind_eq_ok]
  simp only [readByte, next_eq_ok]
  constructor
  · rintro ⟨byte, middle, rfl, read⟩
    have inverse {flag : Bool} {code : UInt8} (same : byte.toNat = code.toNat)
        (flagged : encodeBool flag = [code])
        (read : (pure flag : IdentityDecoder Bool) middle = .ok (value, rest)) :
        byte :: middle = encodeBool value ++ rest := by
      obtain ⟨rfl, rfl⟩ := pure_eq_ok.mp read
      rw [flagged, UInt8.toNat_inj.mp same]
      rfl
    match number : byte.toNat, read with
    | 0, read => exact @inverse false 0 number rfl read
    | 1, read => exact @inverse true 1 number rfl read
    | _ + 2, read => cases read
  · rintro rfl
    refine ⟨_, rest, rfl, ?_⟩
    cases value <;> rfl

theorem readBool_takes : Takes (readBool field) (fun _ => True) encodeBool :=
  readFlag_takes

theorem readU64_takes : Takes (readU64 field) (fun _ => True) encodeU64 :=
  takes_of_iff takeU64_eq_ok

theorem readU32_takes : Takes (readU32 field) (fun _ => True) encodeU32 := by
  refine takes_of_iff fun {input rest value} => ?_
  simp only [readU32, bind_eq_ok, readU64_takes.eq_ok, require_eq_ok, pure_eq_ok]
  constructor
  · rintro ⟨wide, _, ⟨_, rfl⟩, _, _, ⟨small, rfl⟩, rfl, rfl⟩
    rw [encodeU32, encodeU64, UInt64.toNat_toUInt32, Nat.mod_eq_of_lt small]
  · rintro rfl
    refine ⟨value.toUInt64, rest, ⟨trivial, ?_⟩, (), rest, ⟨?_, rfl⟩, by simp, rfl⟩
    · rw [encodeU32, encodeU64, UInt32.toNat_toUInt64]
    · rw [UInt32.toNat_toUInt64]
      exact value.toNat_lt

theorem readLen_takes {cap : Nat} (narrow : cap < 2 ^ 64) :
    Takes (readLen field cap) (· ≤ cap) (leBytes 8) := by
  refine ⟨fun {input rest length} => ?_⟩
  simp only [readLen, bind_eq_ok, readU64_takes.eq_ok, require_eq_ok, pure_eq_ok]
  constructor
  · rintro ⟨wide, _, ⟨_, rfl⟩, _, _, ⟨small, rfl⟩, rfl, rfl⟩
    exact ⟨small, rfl⟩
  · rintro ⟨small, rfl⟩
    have fits : (UInt64.ofNat length).toNat = length :=
      UInt64.toNat_ofNat_of_lt' (Nat.lt_of_le_of_lt small narrow)
    exact ⟨UInt64.ofNat length, rest, ⟨trivial, by rw [encodeU64, fits]⟩, (), rest,
      ⟨by rwa [fits], rfl⟩, fits, rfl⟩

theorem readStr_takes : Takes (readStr field) Short layText := by
  refine ⟨fun {input rest value} => ?_⟩
  have decoded (raw : Bytes) : fromUtf8 field raw = .ok value ↔ Cbor.textBytes value = raw := by
    rw [← Cbor.fromUTF8?_eq_some, fromUtf8]
    cases String.fromUTF8? ⟨raw.toArray⟩ <;> simp
  simp only [readStr, bind_eq_ok, (readLen_takes (show maxIdentityFieldBytes < 2 ^ 64 by decide)).eq_ok,
    IdentityDecoder.take, take_eq_ok, ofExcept_eq_ok, decoded]
  constructor
  · rintro ⟨length, _, ⟨short, rfl⟩, raw, _, ⟨size, rfl⟩, rfl, rfl⟩
    exact ⟨size.trans_le short, by rw [layText, size, append_assoc]⟩
  · rintro ⟨short, rfl⟩
    exact ⟨_, _, ⟨short, by rw [layText, append_assoc]⟩, _, _, ⟨rfl, rfl⟩, rfl, rfl⟩

theorem readOpt_takes {α : Type} {read : String → IdentityDecoder α} {valid : α → Prop}
    {lay : α → Bytes} (exact : Takes (read field) valid lay) :
    Takes (readOpt read field) (fun value => ∀ content ∈ value, valid content) (layOpt lay) := by
  refine ⟨fun {input rest value} => ?_⟩
  rw [readOpt, bind_eq_ok]
  constructor
  · rintro ⟨present, middle, flagged, remaining⟩
    obtain ⟨_, rfl⟩ := readFlag_takes.eq_ok.mp flagged
    cases present with
    | false =>
      obtain ⟨rfl, rfl⟩ := pure_eq_ok.mp remaining
      exact ⟨nofun, rfl⟩
    | true =>
      obtain ⟨content, _, taken, built⟩ := bind_eq_ok.mp remaining
      obtain ⟨holds, rfl⟩ := exact.eq_ok.mp taken
      obtain ⟨rfl, rfl⟩ := pure_eq_ok.mp built
      exact ⟨fun _ same => Option.some.inj same ▸ holds, rfl⟩
  · rintro ⟨holds, rfl⟩
    cases value with
    | none => exact ⟨false, rest, readFlag_takes.eq_ok.mpr ⟨trivial, rfl⟩, rfl⟩
    | some content =>
      refine ⟨true, lay content ++ rest, readFlag_takes.eq_ok.mpr ⟨trivial, rfl⟩, ?_⟩
      exact bind_eq_ok.mpr ⟨content, rest, exact.eq_ok.mpr ⟨holds content rfl, rfl⟩, rfl⟩

theorem readHash_takes : Takes (readHash field) (fun _ => True) ExecutionIdentity.encodeHash := by
  refine takes_of_iff fun {input rest hash} => ?_
  have framed (raw : Bytes) : (EntryHash.fromFramedBytes raw).mapError
      (fun fault => JournalError.invalidPayload (toString fault)) = .ok hash ↔
      raw = hash.toFramedBytes :=
    except_mapError_eq_ok.trans fromFramedBytes_eq_ok
  simp only [readHash, IdentityDecoder.take, bind_eq_ok, take_eq_ok, ofExcept_eq_ok, framed]
  constructor
  · rintro ⟨raw, middle, ⟨size, rfl⟩, rfl, rfl⟩
    rfl
  · rintro rfl
    have size : hash.toFramedBytes.length = framedHashLen := by
      simp [EntryHash.toFramedBytes, hash.digest.2, framedHashLen]
    exact ⟨_, _, ⟨size, rfl⟩, rfl, rfl⟩

theorem readOptStr_takes :
    Takes (readOptStr field) (fun value => ∀ content ∈ value, Short content) (layOpt layText) :=
  readOpt_takes readStr_takes

theorem readOptU64_takes : Takes (readOptU64 field) (fun _ => True) encodeOptU64 :=
  (readOpt_takes readU64_takes).congr (by simp) fun value => by cases value <;> rfl

theorem readOptHash_takes : Takes (readOptHash field) (fun _ => True) encodeOptHash :=
  (readOpt_takes readHash_takes).congr (by simp) fun value => by cases value <;> rfl

theorem length_flatMap_encodeHash (hashes : List EntryHash) :
    (hashes.flatMap ExecutionIdentity.encodeHash).length = hashes.length * framedHashLen := by
  induction hashes with
  | nil => rfl
  | cons hash hashes ih =>
    rw [flatMap_cons, length_append, ih, length_cons, ExecutionIdentity.encodeHash,
      EntryHash.toFramedBytes, length_cons, length_cons, hash.digest.2, framedHashLen]
    omega

theorem readHashes_takes :
    Takes readHashes (fun hashes => hashes.length ≤ maxIdentityInputDigests) layHashes := by
  refine ⟨fun {input rest hashes} => ?_⟩
  rw [readHashes, bind_eq_ok]
  constructor
  · rintro ⟨count, _, counted, remaining⟩
    obtain ⟨few, rfl⟩ := (readLen_takes (show maxIdentityInputDigests < 2 ^ 64 by decide)).eq_ok.mp counted
    obtain ⟨_, _, found, remaining⟩ := bind_eq_ok.mp remaining
    obtain ⟨_, _, required, listed⟩ := bind_eq_ok.mp remaining
    cases found
    obtain ⟨_, rfl⟩ := require_eq_ok.mp required
    obtain ⟨rfl, formed⟩ := (readHash_takes.many count).eq_ok.mp listed
    exact ⟨few, by rw [formed, layHashes, append_assoc]⟩
  · rintro ⟨few, rfl⟩
    have enough : hashes.length ≤
        (hashes.flatMap ExecutionIdentity.encodeHash ++ rest).length / framedHashLen := by
      rw [length_append, length_flatMap_encodeHash, Nat.le_div_iff_mul_le (by decide)]
      exact Nat.le_add_right _ _
    refine ⟨hashes.length, hashes.flatMap ExecutionIdentity.encodeHash ++ rest,
      (readLen_takes (show maxIdentityInputDigests < 2 ^ 64 by decide)).eq_ok.mpr ⟨few, by rw [layHashes, append_assoc]⟩, ?_⟩
    refine bind_eq_ok.mpr ⟨_, _, rfl, bind_eq_ok.mpr ⟨(), _, require_eq_ok.mpr ⟨enough, rfl⟩, ?_⟩⟩
    exact (readHash_takes.many _).eq_ok.mpr ⟨rfl, rfl⟩

end IdentityDecoder

namespace ExecutionIdentity

open IdentityDecoder

theorem readFields_takes : Takes readFields Within layout := by
  refine (Takes.start ( .field engineRevision readOptStr_takes fun _ =>
    .field engineDirty readBool_takes fun _ =>
    .field engineVersion readStr_takes fun _ =>
    .field toolchain readStr_takes fun _ =>
    .field targetTriple readStr_takes fun _ =>
    .field buildProfile readStr_takes fun _ =>
    .field features readStr_takes fun _ =>
    .field lockfileDigest readOptHash_takes fun _ =>
    .field sutRevision readOptStr_takes fun _ =>
    .field sutDirty readBool_takes fun _ =>
    .field sutArtifactDigest readOptHash_takes fun _ =>
    .field guestDigest readOptHash_takes fun _ =>
    .field workloadId readStr_takes fun _ =>
    .field programDigest readHash_takes fun _ =>
    .field inputDigests readHashes_takes fun _ =>
    .field backend readStr_takes fun _ =>
    .field runtimeProfile readStr_takes fun _ =>
    .field runConfigDigest readHash_takes fun _ =>
    .field seedTreeRoot readHash_takes fun _ =>
    .field faultspecDigest readOptHash_takes fun _ =>
    .field oracleVersion readOptU64_takes fun _ =>
    .field supportProviderVersion readOptU64_takes fun _ =>
    .field journalFormatVersion readU32_takes fun _ =>
    .field crashSemanticsVersion readU32_takes fun _ =>
    .field (fun identity : ExecutionIdentity => identity.resourceLimits.maxSteps) readU64_takes fun _ =>
    .done fun other => ?_)).congr (fun identity => ?_) fun identity => ?_
  · obtain ⟨⟩ := other
    simp only [ExecutionIdentity.mk.injEq, ResourceLimits.ext_iff, and_true]
    tauto
  · simp only [true_and, and_true]
    exact ⟨fun ⟨engine, version, chain, triple, profile, features, sut, workload, few, backend, runtime⟩ =>
        ⟨engine, version, chain, triple, profile, features, sut, workload, few, backend, runtime⟩,
      fun within => ⟨within.engineRevision, within.engineVersion, within.toolchain,
        within.targetTriple, within.buildProfile, within.features, within.sutRevision,
        within.workloadId, within.inputDigests, within.backend, within.runtimeProfile⟩⟩
  · rw [append_nil]
    unfold layout
    simp only [append_assoc]

variable {identity : ExecutionIdentity}

theorem fromCanonicalBytes_eq_ok {input : Bytes} :
    fromCanonicalBytes input = .ok identity ↔ identity.Within ∧ input = identity.layout := by
  simp only [fromCanonicalBytes, except_bind_eq_ok]
  constructor
  · rintro ⟨⟨found, rest⟩, read, ended⟩
    have formed := readFields_takes.eq_ok.mp read
    cases rest with
    | nil =>
      cases ended
      rwa [append_nil] at formed
    | cons byte rest => cases ended
  · intro formed
    refine ⟨(identity, []), readFields_takes.eq_ok.mpr ?_, rfl⟩
    rwa [append_nil]

/-! ## Digests in any order -/

theorem Within.arranged (within : identity.Within) : identity.arranged.Within :=
  { within with
    inputDigests := (length_insertionSort (· ≤ ·) identity.inputDigests).trans_le within.inputDigests }

theorem arranged_eq_self : identity.arranged = identity ↔ identity.inputDigests.Pairwise (· ≤ ·) := by
  constructor
  · intro same
    rw [← congrArg inputDigests same]
    exact pairwise_insertionSort (· ≤ ·) identity.inputDigests
  · intro ascending
    rw [arranged, ascending.insertionSort_eq]

theorem layout_inj {left right : ExecutionIdentity} (within : left.Within) (other : right.Within)
    (same : left.layout = right.layout) : left = right := by
  have first : fromCanonicalBytes left.layout = .ok left := fromCanonicalBytes_eq_ok.mpr ⟨within, rfl⟩
  have second : fromCanonicalBytes left.layout = .ok right :=
    fromCanonicalBytes_eq_ok.mpr ⟨other, same⟩
  exact Except.ok.inj (first.symm.trans second)

theorem digest_of_complete {keyedHash : Bytes → Bytes → EntryHash}
    {bytes : Bytes} {hash : EntryHash} (encoded : identity.canonicalBytes = .ok bytes)
    (digested : identity.digest keyedHash = .ok (some hash)) :
    hash = keyedHash identityDomainKey bytes := by
  unfold digest at digested
  split at digested
  · rw [encoded] at digested
    exact (Option.some.inj (Except.ok.inj digested)).symm
  · cases digested

/-- The digests stand in ascending order in the input. -/
def ListsAscending (input : Bytes) : Prop :=
  ∃ identity : ExecutionIdentity, identity.Within ∧ input = identity.layout ∧
    identity.inputDigests.Pairwise (· ≤ ·)

/-- A decoded identity encodes to the bytes it was read from, and has their digest, exactly when
those bytes list the input digests in ascending order. -/
theorem decoded_canonical_iff (keyedHash : Bytes → Bytes → EntryHash) {input : Bytes}
    {identity : ExecutionIdentity} (decoded : fromCanonicalBytes input = .ok identity) :
    (identity.canonicalBytes = .ok input ∧ ∀ hash, identity.digest keyedHash = .ok (some hash) →
        hash = keyedHash identityDomainKey input) ↔ ListsAscending input := by
  obtain ⟨within, laid⟩ := fromCanonicalBytes_eq_ok.mp decoded
  constructor
  · rintro ⟨encoded, _⟩
    have sorted := (canonicalBytes_eq_ok.mp encoded).2
    have same := layout_inj within within.arranged (laid.symm.trans sorted)
    exact ⟨identity, within, laid, arranged_eq_self.mp same.symm⟩
  · rintro ⟨listed, fits, formed, ascending⟩
    obtain rfl := layout_inj fits within (formed.symm.trans laid)
    have encoded : listed.canonicalBytes = .ok input :=
      canonicalBytes_eq_ok.mpr ⟨within, by rw [arranged_eq_self.mpr ascending, laid]⟩
    exact ⟨encoded, fun hash digested => digest_of_complete encoded digested⟩

def plain (digests : List EntryHash) : ExecutionIdentity :=
  { engineRevision := none, engineDirty := false, engineVersion := "", toolchain := "",
    targetTriple := "", buildProfile := "", features := "", lockfileDigest := none,
    sutRevision := none, sutDirty := false, sutArtifactDigest := none, guestDigest := none,
    workloadId := "", programDigest := repeated 0, inputDigests := digests, backend := "",
    runtimeProfile := "", runConfigDigest := repeated 0, seedTreeRoot := repeated 0,
    faultspecDigest := none, oracleVersion := none, supportProviderVersion := none,
    journalFormatVersion := 0, crashSemanticsVersion := 0, resourceLimits := { maxSteps := 0 } }
where
  repeated (byte : UInt8) : EntryHash := ⟨⟨List.replicate 32 byte, length_repeated byte⟩⟩

theorem plain_within {digests : List EntryHash} (few : digests.length ≤ maxIdentityInputDigests) :
    (plain digests).Within := by
  have short : Short "" := by decide
  exact ⟨nofun, short, short, short, short, short, nofun, short, few, short, short⟩

theorem ascendingDigests_canonical : (plain [plain.repeated 1, plain.repeated 2]).canonicalBytes =
        .ok (plain [plain.repeated 1, plain.repeated 2]).layout ∧
      ListsAscending (plain [plain.repeated 1, plain.repeated 2]).layout := by
  have within := @plain_within [plain.repeated 1, plain.repeated 2] (by decide)
  have listed : ListsAscending (plain [plain.repeated 1, plain.repeated 2]).layout :=
    ⟨_, within, rfl, by decide⟩
  exact ⟨((decoded_canonical_iff (fun _ _ => plain.repeated 0)
    (fromCanonicalBytes_eq_ok.mpr ⟨within, rfl⟩)).mpr listed).1, listed⟩

/-- Descending digests are accepted, and written back in another order. -/
theorem descendingDigests_accepted : fromCanonicalBytes (plain [plain.repeated 2, plain.repeated 1]).layout =
        .ok (plain [plain.repeated 2, plain.repeated 1]) ∧
      (plain [plain.repeated 2, plain.repeated 1]).canonicalBytes ≠
        .ok (plain [plain.repeated 2, plain.repeated 1]).layout := by
  have within := @plain_within [plain.repeated 2, plain.repeated 1] (by decide)
  refine ⟨fromCanonicalBytes_eq_ok.mpr ⟨within, rfl⟩, fun encoded => ?_⟩
  have sorted := (canonicalBytes_eq_ok.mp encoded).2
  have ascending := arranged_eq_self.mp (layout_inj within within.arranged sorted).symm
  exact absurd ascending (by decide)

theorem canonicalBytes_of_perm {digests : List EntryHash} (shuffled : digests.Perm identity.inputDigests) :
    canonicalBytes { identity with inputDigests := digests } = identity.canonicalBytes := by
  have sorted : digests.insertionSort (· ≤ ·) = identity.inputDigests.insertionSort (· ≤ ·) := by
    refine List.Perm.eq_of_pairwise' (pairwise_insertionSort _ _) (pairwise_insertionSort _ _) ?_
    exact ((perm_insertionSort _ _).trans shuffled).trans (perm_insertionSort _ _).symm
  have written : encodeHashes digests = encodeHashes identity.inputDigests := by
    simp only [encodeHashes, shuffled.length_eq, sorted]
  simp only [canonicalBytes, checkLimits, shuffled.length_eq, written]

/-- Equal bytes bind every field, the input digests up to their order, which the bytes forget. -/
theorem canonicalBytes_binding :
    (∀ (left right : ExecutionIdentity) (bytes : Bytes), left.canonicalBytes = .ok bytes →
      right.canonicalBytes = .ok bytes → right = { left with inputDigests := right.inputDigests } ∧
          left.inputDigests.Perm right.inputDigests) ∧
    ∀ (identity : ExecutionIdentity) (digests : List EntryHash), digests.Perm identity.inputDigests →
      canonicalBytes { identity with inputDigests := digests } = identity.canonicalBytes := by
  refine ⟨fun left right bytes first second => ?_, fun identity digests => canonicalBytes_of_perm⟩
  obtain ⟨within, laid⟩ := canonicalBytes_eq_ok.mp first
  obtain ⟨other, alike⟩ := canonicalBytes_eq_ok.mp second
  have same : left.arranged = right.arranged :=
    layout_inj within.arranged other.arranged (laid.symm.trans alike)
  constructor
  · calc
      right = { right.arranged with inputDigests := right.inputDigests } := rfl
      _ = { left.arranged with inputDigests := right.inputDigests } := by rw [same]
  · have sorted : left.inputDigests.insertionSort (· ≤ ·) = right.inputDigests.insertionSort (· ≤ ·) :=
      congrArg inputDigests same
    have backward := perm_insertionSort (· ≤ ·) right.inputDigests
    rw [← sorted] at backward
    exact (perm_insertionSort _ _).symm.trans backward

theorem shuffledDigests_binding :
    ∃ bytes, (plain [plain.repeated 1, plain.repeated 2]).canonicalBytes = .ok bytes ∧
      (plain [plain.repeated 2, plain.repeated 1]).canonicalBytes = .ok bytes ∧
      [plain.repeated 1, plain.repeated 2].Perm [plain.repeated 2, plain.repeated 1] := by
  have encoded := canonicalBytes_of_within (@plain_within [plain.repeated 1, plain.repeated 2] (by decide))
  have shuffled := (canonicalBytes_binding.2 (plain [plain.repeated 1, plain.repeated 2])
    [plain.repeated 2, plain.repeated 1] (by decide)).trans encoded
  exact ⟨_, encoded, shuffled, (canonicalBytes_binding.1 _ _ _ encoded shuffled).2⟩

end ExecutionIdentity

end Ldgr
