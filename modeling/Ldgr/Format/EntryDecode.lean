import Ldgr.Format.Entry

/-! Decoding of journal entries, enforcing all bounds before allocation. -/

namespace Ldgr.Format

open Ldgr.Base Ldgr.Format.Cbor Reader

/-! ## Fields -/

/-- An array of exactly `count` items, read by `fields`. -/
def readFields {α : Type} (count : Nat) (message : String) (fields : ItemReader α) : ItemReader α := do
  let found ← readArray
  require (found = count) (.malformedManifest message)
  fields

def readU32 (message : String) : ItemReader UInt32 := do
  let value ← readUnsigned
  require (value.toNat < 2 ^ 32) (.malformedManifest message)
  pure value.toUInt32

def readFixedBytes (length : Nat) (message : String) : ItemReader (FixedBytes length) := do
  let raw ← readBytes
  if fits : raw.length = length then
    pure ⟨raw, fits⟩
  else
    fail (.malformedManifest message)

def decodeActor : ItemReader ActorId := do
  let id ← readU32 "actor exceeds u32"
  pure { id }

def decodeStream : ItemReader StreamId := do
  let id ← readU32 "stream exceeds u32"
  pure { id }

def decodeHash : ItemReader EntryHash := do
  let raw ← readBytes
  ofExcept (EntryHash.fromFramedBytes raw)

def decodeBytes16 : ItemReader (FixedBytes 16) :=
  readFixedBytes 16 "identifier must be 16 bytes"

def decodeMessageId : ItemReader MessageId :=
  readFields 2 "message id must have 2 items" do
    let sender ← decodeActor
    let senderSequence ← readUnsigned
    pure { sender, senderSequence }

/-- Path hashes stay raw 32-byte hints. Only that the path canonicalizes and its own length are
checked here. -/
def decodePathRef : ItemReader PathRef :=
  readFields 2 "path ref must have 2 items" do
    let pathHash ← readFixedBytes 32 "path hash must be 32 bytes"
    let canonicalPath ← readBytes
    let _ ← ofExcept ((Path.canonicalize canonicalPath).mapError fun _ =>
      CborError.malformedManifest "path ref is not canonical")
    require (canonicalPath.length ≤ maxCanonicalPathBytes) .lengthOverflow
    pure { pathHash, canonicalPath }

def decodeValue (message : String) : ItemReader CanonicalValue :=
  mapError (fun _ => CborError.malformedManifest message) readCanonicalValue

/-- Non-empty bytes to XOR over a range. -/
def decodeXorBytes : ItemReader Bytes := do
  let xorBytes ← readBytes
  require (xorBytes ≠ []) (.malformedManifest "empty XOR content is rejected")
  pure xorBytes

def decodeBit : ItemReader UInt8 := do
  let bit ← readUnsigned
  require (bit.toNat < 2 ^ 8) (.malformedManifest "bit exceeds u8")
  require (bit.toUInt8 ≤ 7) (.malformedManifest "bit must be in 0..=7")
  pure bit.toUInt8

/-! ## Payloads -/

def decodeBlock : ItemReader BlockPayload :=
  readFields 1 "Block payload must have 1 item" do
    let discriminant ← readUnsigned
    match discriminant.toNat with
    | 0 => pure .yield
    | 1 => pure .waitMessage
    | _ => fail (.unsupportedType 0)

def decodeWake : ItemReader WakePayload :=
  readFields 2 "Wake payload must have 2 items" do
    let discriminant ← readUnsigned
    match discriminant.toNat with
    | 0 => do
        let timerId ← readUnsigned
        pure (.timerReady timerId)
    | 1 => do
        let messageId ← decodeMessageId
        pure (.messageReady messageId)
    | _ => fail (.unsupportedType 0)

def decodeChildActor : ItemReader ActorId :=
  readFields 1 "Spawn payload must have 1 item" do
    let id ← readU32 "child_actor exceeds u32"
    pure { id }

/-- The identifier and the deadline of a timer entry, for either kind. -/
def decodeTimer : ItemReader (UInt64 × UInt64) :=
  readFields 2 "Timer payload must have 2 items" do
    let timerId ← readUnsigned
    let deadlineTicks ← readUnsigned
    pure (timerId, deadlineTicks)

/-- A message frame, for either direction. -/
def decodeFrame {α : Type} (message : String) (make : MessageId → ActorId → ActorId → Bytes → α) :
    ItemReader α :=
  readFields 4 message do
    let messageId ← decodeMessageId
    let source ← decodeActor
    let target ← decodeActor
    let content ← readBytes
    pure (make messageId source target content)

/-- The declared length of the array must be the one of its discriminant. -/
def decodeFsWriteBody (count : Nat) : ItemReader FsWritePayload := do
  let discriminant ← readUnsigned
  match discriminant.toNat with
  | 0 => do
      require (count = 4) (.malformedManifest "Write payload must have 4 items")
      let pathRef ← decodePathRef
      let offset ← readUnsigned
      let content ← readBytes
      pure (.write pathRef offset content)
  | 1 => do
      require (count = 2) (.malformedManifest "Allocate payload must have 2 items")
      let pathRef ← decodePathRef
      pure (.allocate pathRef)
  | 2 => do
      require (count = 3) (.malformedManifest "Rename payload must have 3 items")
      let fromPathRef ← decodePathRef
      let toPathRef ← decodePathRef
      pure (.rename fromPathRef toPathRef)
  | _ => fail (.unsupportedType 0)

def decodeFsWrite : ItemReader FsWritePayload := do
  let count ← readArray
  require (2 ≤ count ∧ count ≤ 4) (.malformedManifest "FsWrite payload must have 2..=4 items")
  decodeFsWriteBody count

def decodeObservedBody : ItemReader ObservedRead := do
  let discriminant ← readUnsigned
  match discriminant.toNat with
  | 0 => pure .missing
  | 1 => do
      let content ← readBytes
      pure (.present content)
  | _ => fail (.unsupportedType 0)

/-- The declared length may be either of the two, whatever the discriminant. -/
def decodeObserved : ItemReader ObservedRead := do
  let count ← readArray
  require (count = 1 ∨ count = 2) (.malformedManifest "observed result must have 1 or 2 items")
  decodeObservedBody

def decodeFsRead : ItemReader FsReadPayload :=
  readFields 4 "FsRead payload must have 4 items" do
    let pathRef ← decodePathRef
    let offset ← readUnsigned
    let requestedLen ← readUnsigned
    let observed ← decodeObserved
    pure { pathRef, offset, requestedLen, observed }

def decodeRngDraw : ItemReader RngDrawPayload :=
  readFields 3 "RngDraw payload must have 3 items" do
    let stream ← decodeStream
    let drawIndex ← readUnsigned
    let content ← readBytes
    pure { stream, drawIndex, content }

def decodeOutcome : ItemReader OutcomePayload :=
  readFields 2 "Outcome payload must have 2 items" do
    let schema ← decodeHash
    let value ← decodeValue "outcome value invalid"
    pure { schema, value }

def decodeAssert : ItemReader AssertPayload :=
  readFields 3 "Assert payload must have 3 items" do
    let predicate ← decodeHash
    let passed ← readBool
    let detail ← decodeValue "assert detail invalid"
    pure { predicate, passed, detail }

def decodeInputStep : ItemReader InputStepPayload :=
  readFields 3 "InputStep payload must have 3 items" do
    let generator ← readUnsigned
    let replay ← readUnsigned
    let value ← decodeValue "input value invalid"
    pure { generator, replay, value }

def decodeCapRequest : ItemReader CapRequestPayload :=
  readFields 3 "CapRequest payload must have 3 items" do
    let request ← decodeBytes16
    let subject ← decodeHash
    let capability ← decodeHash
    pure { request, subject, capability }

def decodeCapGrant : ItemReader CapGrantPayload :=
  readFields 3 "CapGrant payload must have 3 items" do
    let request ← decodeBytes16
    let grant ← decodeBytes16
    let epoch ← readUnsigned
    pure { request, grant, epoch }

def decodeCapInvoke : ItemReader CapInvokePayload :=
  readFields 2 "CapInvoke payload must have 2 items" do
    let grant ← decodeBytes16
    let operation ← decodeHash
    pure { grant, operation }

def decodeCapRevoke : ItemReader CapRevokePayload :=
  readFields 2 "CapRevoke payload must have 2 items" do
    let grant ← decodeBytes16
    let epoch ← readUnsigned
    pure { grant, epoch }

def decodeCrashBody : ItemReader CrashOperation := do
  let discriminant ← readUnsigned
  match discriminant.toNat with
  | 0 => pure .dropAllUnsynced
  | 1 => do
      let paths ← readArray >>= many decodePathRef
      pure (.dropPaths paths)
  | 2 => do
      let writeEntry ← decodeHash
      let persistedPrefix ← readUnsigned
      pure (.tornWrite writeEntry persistedPrefix)
  | 3 => do
      let writeEntry ← decodeHash
      let offset ← readUnsigned
      let xorBytes ← decodeXorBytes
      pure (.corruptRange writeEntry offset xorBytes)
  | 4 => do
      let writeEntry ← decodeHash
      let offset ← readUnsigned
      let bit ← decodeBit
      pure (.bitFlip writeEntry offset bit)
  | _ => fail (.unsupportedType 0)

/-- The declared length is not compared with the discriminant. -/
def decodeCrashOperation : ItemReader CrashOperation := do
  let count ← readArray
  require (1 ≤ count ∧ count ≤ 4) (.malformedManifest "crash operation must have 1..=4 items")
  decodeCrashBody

def decodeFaultBody : ItemReader FaultPayload := do
  let discriminant ← readUnsigned
  match discriminant.toNat with
  | 0 => do
      let messageId ← decodeMessageId
      pure (.dropMessage messageId)
  | 1 => do
      let messageId ← decodeMessageId
      let ticks ← readUnsigned
      pure (.delayMessage messageId ticks)
  | 2 => do
      let messageId ← decodeMessageId
      let copyOrdinal ← readU32 "copy_ordinal exceeds u32"
      pure (.duplicateMessage messageId copyOrdinal)
  | 3 => do
      let messageId ← decodeMessageId
      let offset ← readUnsigned
      let xorBytes ← decodeXorBytes
      pure (.corruptMessage messageId offset xorBytes)
  | 4 => do
      let source ← decodeActor
      let target ← decodeActor
      let enabled ← readBool
      pure (.partition source target enabled)
  | 5 => do
      let actor ← decodeActor
      let crashOperation ← decodeCrashOperation
      pure (.crashActor actor crashOperation)
  | _ => fail (.unsupportedType 0)

/-- The declared length is not compared with the discriminant. -/
def decodeFaultPayload : ItemReader FaultPayload := do
  let count ← readArray
  require (2 ≤ count ∧ count ≤ 4) (.malformedManifest "Fault payload must have 2..=4 items")
  decodeFaultBody

def decodeIdempotencyKey : ItemReader (Option Bytes) :=
  readKind (.malformedManifest "idempotency key must be null or bytes") fun
    | .null => some none
    | .bytes key => some (some key)
    | _ => none

def decodeStepBegin : ItemReader StepBeginPayload :=
  readFields 3 "StepBegin payload must have 3 items" do
    let stepId ← readUnsigned
    let name ← readBytes
    let idempotencyKey ← decodeIdempotencyKey
    pure { stepId, name, idempotencyKey }

/-- The discriminant is checked last. -/
def decodeStepEnd : ItemReader StepEndPayload :=
  readFields 3 "StepEnd payload must have 3 items" do
    let discriminant ← readUnsigned
    let stepId ← readUnsigned
    let value ← decodeValue "step-end value invalid"
    match discriminant.toNat with
    | 0 => pure (.completed stepId value)
    | 1 => pure (.failed stepId value)
    | 2 => pure (.cancelled stepId value)
    | _ => fail (.unsupportedType 0)

def decodePayload : EntryKind → ItemReader EntryPayload
  | .spawn => do
      let childActor ← decodeChildActor
      pure (.spawn childActor)
  | .block => do
      let reason ← decodeBlock
      pure (.block reason)
  | .wake => do
      let reason ← decodeWake
      pure (.wake reason)
  | .timerSet => do
      let (timerId, deadlineTicks) ← decodeTimer
      pure (.timerSet timerId deadlineTicks)
  | .timerFire => do
      let (timerId, deadlineTicks) ← decodeTimer
      pure (.timerFire timerId deadlineTicks)
  | .clockRead => do
      let ticks ← readFields 1 "ClockRead payload must have 1 item" readUnsigned
      pure (.clockRead ticks)
  | .send => do
      let frame ← decodeFrame "Send frame must have 4 items" SendFrame.mk
      pure (.send frame)
  | .recv => do
      let frame ← decodeFrame "Recv frame must have 4 items" RecvFrame.mk
      pure (.recv frame)
  | .fsWrite => do
      let write ← decodeFsWrite
      pure (.fsWrite write)
  | .fsFsync => do
      let pathRef ← readFields 1 "FsFsync payload must have 1 item" decodePathRef
      pure (.fsFsync pathRef)
  | .fsRead => do
      let read ← decodeFsRead
      pure (.fsRead read)
  | .rngDraw => do
      let draw ← decodeRngDraw
      pure (.rngDraw draw)
  | .outcome => do
      let reported ← decodeOutcome
      pure (.outcome reported)
  | .assert => do
      let checked ← decodeAssert
      pure (.assert checked)
  | .snapshot => do
      let snapshotDigest ← readFields 1 "Snapshot payload must have 1 item" decodeHash
      pure (.snapshot snapshotDigest)
  | .epoch => do
      let number ← readFields 1 "Epoch payload must have 1 item" readUnsigned
      pure (.epoch number)
  | .inputStep => do
      let step ← decodeInputStep
      pure (.inputStep step)
  | .capRequest => do
      let request ← decodeCapRequest
      pure (.capRequest request)
  | .capGrant => do
      let grant ← decodeCapGrant
      pure (.capGrant grant)
  | .capInvoke => do
      let invoke ← decodeCapInvoke
      pure (.capInvoke invoke)
  | .capRevoke => do
      let revoke ← decodeCapRevoke
      pure (.capRevoke revoke)
  | .fault => do
      let injected ← decodeFaultPayload
      pure (.fault injected)
  | .stepBegin => do
      let begun ← decodeStepBegin
      pure (.stepBegin begun)
  | .stepEnd => do
      let ended ← decodeStepEnd
      pure (.stepEnd ended)

/-! ## Entries -/

def readBounded {α : Type} (limit : Nat) (read : ItemReader α) : ItemReader (List α) := do
  let count ← readArray
  require (count ≤ limit) .lengthOverflow
  many read count

def decodeKind : ItemReader EntryKind := do
  let tag ← readUnsigned
  match EntryKind.fromTag tag with
  | some kind => pure kind
  | none => fail (.unknownTag tag)

def decodeEntry : ItemReader EntryData :=
  readFields 7 "EntryData must hold exactly 7 items" do
    let version ← readU32 "format version exceeds u32"
    require (version = formatVersion) (.unsupportedVersion version)
    let kind ← decodeKind
    let actor ← decodeActor
    let parents ← readBounded maxParentsPerEntry decodeHash
    let vectorClock ← readBounded maxVectorClockActors readUnsigned
    let sequence ← readUnsigned
    let payload ← decodePayload kind
    pure { formatVersion := version, kind, actor, parents, vectorClock, sequence, payload }

def EntryData.fromCanonicalBytes (input : Bytes) : Except CborError EntryData :=
  if maxEntryBytes < input.length then
    .error .lengthOverflow
  else do
    let (data, rest) ← decodeEntry input
    if rest = [] then
      pure data
    else
      throw .trailingBytes

end Ldgr.Format
