import Ldgr.Journal.Dag

/-! The execution identity: length-prefixed fields in declaration order, behind a keyed digest. -/

namespace Ldgr

open Base Format Reader

def identityDomainKey : Bytes :=
  Cbor.textBytes "ldgr.execution-identity.v1" ++ List.replicate 6 0

def maxIdentityFieldBytes : Nat := 4096

def maxIdentityInputDigests : Nat := 4096

def framedHashLen : Nat := 34

@[ext] structure ResourceLimits where
  maxSteps : UInt64
  deriving DecidableEq

/-- Build and run binding of one execution. -/
structure ExecutionIdentity where
  engineRevision : Option String
  engineDirty : Bool
  engineVersion : String
  toolchain : String
  targetTriple : String
  buildProfile : String
  features : String
  lockfileDigest : Option EntryHash
  sutRevision : Option String
  sutDirty : Bool
  sutArtifactDigest : Option EntryHash
  guestDigest : Option EntryHash
  workloadId : String
  programDigest : EntryHash
  inputDigests : List EntryHash
  backend : String
  runtimeProfile : String
  runConfigDigest : EntryHash
  seedTreeRoot : EntryHash
  faultspecDigest : Option EntryHash
  oracleVersion : Option UInt64
  supportProviderVersion : Option UInt64
  journalFormatVersion : UInt32
  crashSemanticsVersion : UInt32
  resourceLimits : ResourceLimits
  deriving DecidableEq

namespace ExecutionIdentity

/-! ## Fields -/

def checkStrLen (field value : String) : Except JournalError Unit :=
  if maxIdentityFieldBytes < (Cbor.textBytes value).length then
    .error (.invalidPayload ("identity field " ++ field ++ " exceeds limit"))
  else .ok ()

def checkOptStrLen (field : String) : Option String → Except JournalError Unit
  | some value => checkStrLen field value
  | none => .ok ()

def encodeLen (length : Nat) (field : String) : Except JournalError Bytes :=
  if length < 2 ^ 64 then .ok (leBytes 8 length)
  else .error (.invalidPayload ("identity field " ++ field ++ " length exceeds u64"))

def encodeBool (value : Bool) : Bytes :=
  [if value then 1 else 0]

/-- A 32-bit word is written in eight bytes. -/
def encodeU32 (value : UInt32) : Bytes :=
  leBytes 8 value.toNat

def encodeU64 (value : UInt64) : Bytes :=
  leBytes 8 value.toNat

def encodeOptU64 : Option UInt64 → Bytes
  | some value => 1 :: encodeU64 value
  | none => [0]

def encodeStr (value : String) : Except JournalError Bytes := do
  checkStrLen "field" value
  let length ← encodeLen (Cbor.textBytes value).length "field"
  pure (length ++ Cbor.textBytes value)

def encodeOptStr : Option String → Except JournalError Bytes
  | some value => do
      let content ← encodeStr value
      pure (1 :: content)
  | none => .ok [0]

def encodeHash (hash : EntryHash) : Bytes :=
  hash.toFramedBytes

def encodeOptHash : Option EntryHash → Bytes
  | some hash => 1 :: encodeHash hash
  | none => [0]

/-- The digests are written in ascending order. -/
def encodeHashes (hashes : List EntryHash) : Except JournalError Bytes := do
  if maxIdentityInputDigests < hashes.length then
    .error (.invalidPayload "input_digests exceeds identity limit")
  else
    let sorted := hashes.insertionSort (· ≤ ·)
    let count ← encodeLen sorted.length "input_digests"
    pure (count ++ sorted.flatMap encodeHash)

/-! ## Encoding -/

variable (identity : ExecutionIdentity)

/-- Every engine build field is present. -/
def isComplete : Bool :=
  identity.engineRevision.isSome && identity.lockfileDigest.isSome &&
    !identity.engineVersion.isEmpty && !identity.toolchain.isEmpty &&
    !identity.targetTriple.isEmpty && !identity.buildProfile.isEmpty

def isPublishReady : Bool :=
  identity.isComplete && identity.sutRevision.isSome && !identity.workloadId.isEmpty

/-- The caps are checked before anything is written, with the name of the field. -/
def checkLimits : Except JournalError Unit := do
  checkStrLen "engine_version" identity.engineVersion
  checkStrLen "toolchain" identity.toolchain
  checkStrLen "target_triple" identity.targetTriple
  checkStrLen "build_profile" identity.buildProfile
  checkStrLen "features" identity.features
  checkStrLen "workload_id" identity.workloadId
  checkStrLen "backend" identity.backend
  checkStrLen "runtime_profile" identity.runtimeProfile
  checkOptStrLen "engine_revision" identity.engineRevision
  checkOptStrLen "sut_revision" identity.sutRevision
  if maxIdentityInputDigests < identity.inputDigests.length then
    .error (.invalidPayload "input_digests exceeds identity limit")
  else .ok ()

def canonicalBytes : Except JournalError Bytes := do
  checkLimits identity
  let engineRevision ← encodeOptStr identity.engineRevision
  let engineVersion ← encodeStr identity.engineVersion
  let toolchain ← encodeStr identity.toolchain
  let targetTriple ← encodeStr identity.targetTriple
  let buildProfile ← encodeStr identity.buildProfile
  let features ← encodeStr identity.features
  let sutRevision ← encodeOptStr identity.sutRevision
  let workloadId ← encodeStr identity.workloadId
  let inputDigests ← encodeHashes identity.inputDigests
  let backend ← encodeStr identity.backend
  let runtimeProfile ← encodeStr identity.runtimeProfile
  pure (engineRevision ++ encodeBool identity.engineDirty ++ engineVersion ++ toolchain ++
    targetTriple ++ buildProfile ++ features ++ encodeOptHash identity.lockfileDigest ++
    sutRevision ++ encodeBool identity.sutDirty ++ encodeOptHash identity.sutArtifactDigest ++
    encodeOptHash identity.guestDigest ++ workloadId ++ encodeHash identity.programDigest ++
    inputDigests ++ backend ++ runtimeProfile ++ encodeHash identity.runConfigDigest ++
    encodeHash identity.seedTreeRoot ++ encodeOptHash identity.faultspecDigest ++
    encodeOptU64 identity.oracleVersion ++ encodeOptU64 identity.supportProviderVersion ++
    encodeU32 identity.journalFormatVersion ++ encodeU32 identity.crashSemanticsVersion ++
    encodeU64 identity.resourceLimits.maxSteps)

/-- Domain-separated digest of the canonical bytes; an incomplete identity has none. -/
def digest (keyedHash : Bytes → Bytes → EntryHash) (identity : ExecutionIdentity) :
    Except JournalError (Option EntryHash) :=
  if identity.isComplete then do
    let bytes ← identity.canonicalBytes
    pure (some (keyedHash identityDomainKey bytes))
  else .ok none

/-! ## Decoding -/

end ExecutionIdentity

abbrev IdentityDecoder := Reader UInt8 JournalError

namespace IdentityDecoder

def fault (field reason : String) : JournalError :=
  .invalidPayload ("identity field " ++ field ++ " " ++ reason)

def take (count : Nat) (field : String) : IdentityDecoder Bytes :=
  Reader.take count (fault field "is truncated")

def readByte (field : String) : IdentityDecoder UInt8 :=
  next (fault field "is truncated")

/-- A byte that is zero or one; `reason` tells what another byte is not. -/
def readFlag (field reason : String) : IdentityDecoder Bool := do
  let byte ← readByte field
  match byte.toNat with
  | 0 => pure false
  | 1 => pure true
  | _ => fail (fault field reason)

def readBool (field : String) : IdentityDecoder Bool :=
  readFlag field "is not a bool"

def readPresence (field : String) : IdentityDecoder Bool :=
  readFlag field "has invalid presence flag"

def readU64 (field : String) : IdentityDecoder UInt64 := do
  let raw ← take 8 field
  pure (UInt64.ofNat (leNat raw))

def readU32 (field : String) : IdentityDecoder UInt32 := do
  let wide ← readU64 field
  require (wide.toNat < 2 ^ 32) (fault field "exceeds u32")
  pure wide.toUInt32

def readLen (field : String) (cap : Nat) : IdentityDecoder Nat := do
  let wide ← readU64 field
  require (wide.toNat ≤ cap) (fault field "exceeds limit")
  pure wide.toNat

def fromUtf8 (field : String) (raw : Bytes) : Except JournalError String :=
  match String.fromUTF8? ⟨raw.toArray⟩ with
  | some text => .ok text
  | none => .error (fault field "is not valid UTF-8")

def readStr (field : String) : IdentityDecoder String := do
  let length ← readLen field maxIdentityFieldBytes
  let raw ← take length field
  ofExcept (fromUtf8 field raw)

/-- A field behind its presence flag. -/
def readOpt {α : Type} (read : String → IdentityDecoder α) (field : String) : IdentityDecoder (Option α) := do
  let present ← readPresence field
  if present then do
    let value ← read field
    pure (some value)
  else pure none

def readOptStr (field : String) : IdentityDecoder (Option String) :=
  readOpt readStr field

def readOptU64 (field : String) : IdentityDecoder (Option UInt64) :=
  readOpt readU64 field

def readHash (field : String) : IdentityDecoder EntryHash := do
  let raw ← take framedHashLen field
  ofExcept ((EntryHash.fromFramedBytes raw).mapError fun fault => .invalidPayload (toString fault))

def readOptHash (field : String) : IdentityDecoder (Option EntryHash) :=
  readOpt readHash field

/-- The digests are taken in the order they are listed. -/
def readHashes : IdentityDecoder (List EntryHash) := do
  let count ← readLen "input_digests" maxIdentityInputDigests
  let remaining ← remaining
  require (count ≤ remaining / framedHashLen) (.invalidPayload "input_digests is truncated")
  many (readHash "input_digests") count

end IdentityDecoder

namespace ExecutionIdentity

open IdentityDecoder

/-- The fields, up to the check that nothing follows them. -/
def readFields : IdentityDecoder ExecutionIdentity := do
  let engineRevision ← readOptStr "engine_revision"
  let engineDirty ← readBool "engine_dirty"
  let engineVersion ← readStr "engine_version"
  let toolchain ← readStr "toolchain"
  let targetTriple ← readStr "target_triple"
  let buildProfile ← readStr "build_profile"
  let features ← readStr "features"
  let lockfileDigest ← readOptHash "lockfile_digest"
  let sutRevision ← readOptStr "sut_revision"
  let sutDirty ← readBool "sut_dirty"
  let sutArtifactDigest ← readOptHash "sut_artifact_digest"
  let guestDigest ← readOptHash "guest_digest"
  let workloadId ← readStr "workload_id"
  let programDigest ← readHash "program_digest"
  let inputDigests ← readHashes
  let backend ← readStr "backend"
  let runtimeProfile ← readStr "runtime_profile"
  let runConfigDigest ← readHash "run_config_digest"
  let seedTreeRoot ← readHash "seed_tree_root"
  let faultspecDigest ← readOptHash "faultspec_digest"
  let oracleVersion ← readOptU64 "oracle_version"
  let supportProviderVersion ← readOptU64 "support_provider_version"
  let journalFormatVersion ← readU32 "journal_format_version"
  let crashSemanticsVersion ← readU32 "crash_semantics_version"
  let maxSteps ← readU64 "resource_limits.max_steps"
  pure { engineRevision, engineDirty, engineVersion, toolchain, targetTriple, buildProfile, features,
         lockfileDigest, sutRevision, sutDirty, sutArtifactDigest, guestDigest, workloadId,
         programDigest, inputDigests, backend, runtimeProfile, runConfigDigest, seedTreeRoot,
         faultspecDigest, oracleVersion, supportProviderVersion, journalFormatVersion,
         crashSemanticsVersion, resourceLimits := { maxSteps } }

def fromCanonicalBytes (input : Bytes) : Except JournalError ExecutionIdentity := do
  let (identity, rest) ← readFields input
  if rest.isEmpty then .ok identity
  else .error (.invalidPayload "identity encoding has trailing bytes")

end ExecutionIdentity

end Ldgr
