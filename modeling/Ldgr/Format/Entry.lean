import Ldgr.Format.Path
import Ldgr.Format.Value

/-! Journal entry taxonomy and its canonical encoding: each entry is one array
`[version, kind_tag, actor, parents, clock, sequence, payload]`, and the tag selects exactly one
payload shape. -/

namespace Ldgr.Format

open Ldgr.Base Ldgr.Format.Cbor

/-! ## Identifiers -/

/-- A 32-byte content address: the raw digest in memory, a 34-byte framed multihash on the wire. -/
structure EntryHash where
  digest : FixedBytes 32
  deriving DecidableEq

def multihashBlake3Code : UInt8 := 0x1e

def multihashBlake3Len : UInt8 := 0x20

namespace EntryHash

def toFramedBytes (hash : EntryHash) : Bytes :=
  multihashBlake3Code :: multihashBlake3Len :: hash.digest.1

def fromFramedBytes (raw : Bytes) : Except CborError EntryHash :=
  match raw with
  | code :: len :: digest =>
    if length : digest.length = 32 then
      if code = multihashBlake3Code ∧ len = multihashBlake3Len then
        .ok { digest := ⟨digest, length⟩ }
      else
        .error (.malformedManifest "hash multihash prefix must be [0x1e, 0x20]")
    else
      .error (.malformedManifest "hash must be a 34-byte framed BLAKE3 multihash")
  | _ => .error (.malformedManifest "hash must be a 34-byte framed BLAKE3 multihash")

end EntryHash

structure ActorId where
  id : UInt32
  deriving DecidableEq, Repr

structure StreamId where
  id : UInt32
  deriving DecidableEq, Repr

structure MessageId where
  sender : ActorId
  senderSequence : UInt64
  deriving DecidableEq, Repr

inductive EntryKind where
  | spawn | block | wake | timerSet | timerFire | clockRead | send | recv
  | fsWrite | fsFsync | fsRead | rngDraw | outcome | assert | snapshot | epoch
  | inputStep | capRequest | capGrant | capInvoke | capRevoke | fault | stepBegin | stepEnd
  deriving DecidableEq, Repr

namespace EntryKind

def tag : EntryKind → UInt64
  | .spawn => 0
  | .block => 1
  | .wake => 2
  | .timerSet => 3
  | .timerFire => 4
  | .clockRead => 5
  | .send => 6
  | .recv => 7
  | .fsWrite => 8
  | .fsFsync => 9
  | .fsRead => 10
  | .rngDraw => 11
  | .outcome => 12
  | .assert => 13
  | .snapshot => 14
  | .epoch => 15
  | .inputStep => 16
  | .capRequest => 17
  | .capGrant => 18
  | .capInvoke => 19
  | .capRevoke => 20
  | .fault => 21
  | .stepBegin => 22
  | .stepEnd => 23

def fromTag (tag : UInt64) : Option EntryKind :=
  match tag.toNat with
  | 0 => some .spawn
  | 1 => some .block
  | 2 => some .wake
  | 3 => some .timerSet
  | 4 => some .timerFire
  | 5 => some .clockRead
  | 6 => some .send
  | 7 => some .recv
  | 8 => some .fsWrite
  | 9 => some .fsFsync
  | 10 => some .fsRead
  | 11 => some .rngDraw
  | 12 => some .outcome
  | 13 => some .assert
  | 14 => some .snapshot
  | 15 => some .epoch
  | 16 => some .inputStep
  | 17 => some .capRequest
  | 18 => some .capGrant
  | 19 => some .capInvoke
  | 20 => some .capRevoke
  | 21 => some .fault
  | 22 => some .stepBegin
  | 23 => some .stepEnd
  | _ => none

end EntryKind

/-! ## Payloads -/

inductive BlockPayload where
  | yield
  | waitMessage
  deriving DecidableEq, Repr

inductive WakePayload where
  | timerReady (timerId : UInt64)
  | messageReady (messageId : MessageId)
  deriving DecidableEq, Repr

inductive StepEndPayload where
  | completed (stepId : UInt64) (result : CanonicalValue)
  | failed (stepId : UInt64) (error : CanonicalValue)
  | cancelled (stepId : UInt64) (reason : CanonicalValue)

structure SendFrame where
  messageId : MessageId
  source : ActorId
  target : ActorId
  originalContent : Bytes
  deriving DecidableEq

structure RecvFrame where
  messageId : MessageId
  source : ActorId
  target : ActorId
  observedContent : Bytes
  deriving DecidableEq

inductive FsWritePayload where
  | write (pathRef : PathRef) (offset : UInt64) (content : Bytes)
  | allocate (pathRef : PathRef)
  | rename (fromPathRef toPathRef : PathRef)
  deriving DecidableEq

inductive ObservedRead where
  | missing
  | present (content : Bytes)
  deriving DecidableEq

structure FsReadPayload where
  pathRef : PathRef
  offset : UInt64
  requestedLen : UInt64
  observed : ObservedRead
  deriving DecidableEq

structure RngDrawPayload where
  stream : StreamId
  drawIndex : UInt64
  content : Bytes
  deriving DecidableEq

structure OutcomePayload where
  schema : EntryHash
  value : CanonicalValue

structure AssertPayload where
  predicate : EntryHash
  passed : Bool
  detail : CanonicalValue

structure InputStepPayload where
  generator : UInt64
  replay : UInt64
  value : CanonicalValue

structure CapRequestPayload where
  request : FixedBytes 16
  subject : EntryHash
  capability : EntryHash
  deriving DecidableEq

structure CapGrantPayload where
  request : FixedBytes 16
  grant : FixedBytes 16
  epoch : UInt64
  deriving DecidableEq

structure CapInvokePayload where
  grant : FixedBytes 16
  operation : EntryHash
  deriving DecidableEq

structure CapRevokePayload where
  grant : FixedBytes 16
  epoch : UInt64
  deriving DecidableEq

inductive CrashOperation where
  | dropAllUnsynced
  | dropPaths (paths : List PathRef)
  | tornWrite (writeEntry : EntryHash) (persistedPrefix : UInt64)
  | corruptRange (writeEntry : EntryHash) (offset : UInt64) (xorBytes : Bytes)
  | bitFlip (writeEntry : EntryHash) (offset : UInt64) (bit : UInt8)
  deriving DecidableEq

inductive FaultPayload where
  | dropMessage (messageId : MessageId)
  | delayMessage (messageId : MessageId) (ticks : UInt64)
  | duplicateMessage (messageId : MessageId) (copyOrdinal : UInt32)
  | corruptMessage (messageId : MessageId) (offset : UInt64) (xorBytes : Bytes)
  | partition (source target : ActorId) (enabled : Bool)
  | crashActor (actor : ActorId) (crashOperation : CrashOperation)
  deriving DecidableEq

structure StepBeginPayload where
  stepId : UInt64
  name : Bytes
  idempotencyKey : Option Bytes
  deriving DecidableEq

inductive EntryPayload where
  | spawn (childActor : ActorId)
  | block (reason : BlockPayload)
  | wake (reason : WakePayload)
  | timerSet (timerId deadlineTicks : UInt64)
  | timerFire (timerId deadlineTicks : UInt64)
  | clockRead (ticks : UInt64)
  | send (frame : SendFrame)
  | recv (frame : RecvFrame)
  | fsWrite (write : FsWritePayload)
  | fsFsync (pathRef : PathRef)
  | fsRead (read : FsReadPayload)
  | rngDraw (draw : RngDrawPayload)
  | outcome (reported : OutcomePayload)
  | assert (checked : AssertPayload)
  | snapshot (snapshotDigest : EntryHash)
  | epoch (number : UInt64)
  | inputStep (step : InputStepPayload)
  | capRequest (request : CapRequestPayload)
  | capGrant (grant : CapGrantPayload)
  | capInvoke (invoke : CapInvokePayload)
  | capRevoke (revoke : CapRevokePayload)
  | fault (injected : FaultPayload)
  | stepBegin (begun : StepBeginPayload)
  | stepEnd (ended : StepEndPayload)

def EntryPayload.kind : EntryPayload → EntryKind
  | .spawn _ => .spawn
  | .block _ => .block
  | .wake _ => .wake
  | .timerSet _ _ => .timerSet
  | .timerFire _ _ => .timerFire
  | .clockRead _ => .clockRead
  | .send _ => .send
  | .recv _ => .recv
  | .fsWrite _ => .fsWrite
  | .fsFsync _ => .fsFsync
  | .fsRead _ => .fsRead
  | .rngDraw _ => .rngDraw
  | .outcome _ => .outcome
  | .assert _ => .assert
  | .snapshot _ => .snapshot
  | .epoch _ => .epoch
  | .inputStep _ => .inputStep
  | .capRequest _ => .capRequest
  | .capGrant _ => .capGrant
  | .capInvoke _ => .capInvoke
  | .capRevoke _ => .capRevoke
  | .fault _ => .fault
  | .stepBegin _ => .stepBegin
  | .stepEnd _ => .stepEnd

/-! ## Encoding -/

def encodeHash (hash : EntryHash) : Bytes :=
  Cbor.bytes hash.toFramedBytes

def encodeActor (actor : ActorId) : Bytes :=
  unsigned actor.id.toUInt64

def encodeMessageId (messageId : MessageId) : Bytes :=
  array 2 ++ encodeActor messageId.sender ++ unsigned messageId.senderSequence

def encodeFsWrite : FsWritePayload → Bytes
  | .write pathRef offset content =>
    array 4 ++ unsigned 0 ++ encodePathRef pathRef ++ unsigned offset ++ bytes content
  | .allocate pathRef => array 2 ++ unsigned 1 ++ encodePathRef pathRef
  | .rename fromPathRef toPathRef =>
    array 3 ++ unsigned 2 ++ encodePathRef fromPathRef ++ encodePathRef toPathRef

def encodeObserved : ObservedRead → Bytes
  | .missing => array 1 ++ unsigned 0
  | .present content => array 2 ++ unsigned 1 ++ bytes content

def encodeCrashOperation : CrashOperation → Bytes
  | .dropAllUnsynced => array 1 ++ unsigned 0
  | .dropPaths paths => array 2 ++ unsigned 1 ++ array paths.length ++ paths.flatMap encodePathRef
  | .tornWrite writeEntry persistedPrefix =>
    array 3 ++ unsigned 2 ++ encodeHash writeEntry ++ unsigned persistedPrefix
  | .corruptRange writeEntry offset xorBytes =>
    array 4 ++ unsigned 3 ++ encodeHash writeEntry ++ unsigned offset ++ bytes xorBytes
  | .bitFlip writeEntry offset bit =>
    array 4 ++ unsigned 4 ++ encodeHash writeEntry ++ unsigned offset ++ unsigned bit.toUInt64

def encodeFaultPayload : FaultPayload → Bytes
  | .dropMessage messageId => array 2 ++ unsigned 0 ++ encodeMessageId messageId
  | .delayMessage messageId ticks =>
    array 3 ++ unsigned 1 ++ encodeMessageId messageId ++ unsigned ticks
  | .duplicateMessage messageId copyOrdinal =>
    array 3 ++ unsigned 2 ++ encodeMessageId messageId ++ unsigned copyOrdinal.toUInt64
  | .corruptMessage messageId offset xorBytes =>
    array 4 ++ unsigned 3 ++ encodeMessageId messageId ++ unsigned offset ++ bytes xorBytes
  | .partition source target enabled =>
    array 4 ++ unsigned 4 ++ encodeActor source ++ encodeActor target ++ boolean enabled
  | .crashActor actor crashOperation =>
    array 3 ++ unsigned 5 ++ encodeActor actor ++ encodeCrashOperation crashOperation

def encodeIdempotencyKey : Option Bytes → Bytes
  | some key => bytes key
  | none => null

/-- The discriminant, the step and the value of a finished step. -/
def StepEndPayload.parts : StepEndPayload → UInt64 × UInt64 × CanonicalValue
  | .completed stepId result => (0, stepId, result)
  | .failed stepId error => (1, stepId, error)
  | .cancelled stepId reason => (2, stepId, reason)

namespace EntryPayload

/-- The payload up to the canonical value it may end with. -/
def fields : EntryPayload → Bytes
  | .spawn childActor => array 1 ++ encodeActor childActor
  | .block .yield => array 1 ++ unsigned 0
  | .block .waitMessage => array 1 ++ unsigned 1
  | .wake (.timerReady timerId) => array 2 ++ unsigned 0 ++ unsigned timerId
  | .wake (.messageReady messageId) => array 2 ++ unsigned 1 ++ encodeMessageId messageId
  | .timerSet timerId deadlineTicks => array 2 ++ unsigned timerId ++ unsigned deadlineTicks
  | .timerFire timerId deadlineTicks => array 2 ++ unsigned timerId ++ unsigned deadlineTicks
  | .clockRead ticks => array 1 ++ unsigned ticks
  | .send frame =>
    array 4 ++ encodeMessageId frame.messageId ++ encodeActor frame.source ++
      encodeActor frame.target ++ bytes frame.originalContent
  | .recv frame =>
    array 4 ++ encodeMessageId frame.messageId ++ encodeActor frame.source ++
      encodeActor frame.target ++ bytes frame.observedContent
  | .fsWrite write => encodeFsWrite write
  | .fsFsync pathRef => array 1 ++ encodePathRef pathRef
  | .fsRead read =>
    array 4 ++ encodePathRef read.pathRef ++ unsigned read.offset ++
      unsigned read.requestedLen ++ encodeObserved read.observed
  | .rngDraw draw =>
    array 3 ++ unsigned draw.stream.id.toUInt64 ++ unsigned draw.drawIndex ++ bytes draw.content
  | .outcome reported => array 2 ++ encodeHash reported.schema
  | .assert checked => array 3 ++ encodeHash checked.predicate ++ boolean checked.passed
  | .snapshot snapshotDigest => array 1 ++ encodeHash snapshotDigest
  | .epoch number => array 1 ++ unsigned number
  | .inputStep step => array 3 ++ unsigned step.generator ++ unsigned step.replay
  | .capRequest request =>
    array 3 ++ bytes request.request.1 ++ encodeHash request.subject ++ encodeHash request.capability
  | .capGrant grant => array 3 ++ bytes grant.request.1 ++ bytes grant.grant.1 ++ unsigned grant.epoch
  | .capInvoke invoke => array 2 ++ bytes invoke.grant.1 ++ encodeHash invoke.operation
  | .capRevoke revoke => array 2 ++ bytes revoke.grant.1 ++ unsigned revoke.epoch
  | .fault injected => encodeFaultPayload injected
  | .stepBegin begun =>
    array 3 ++ unsigned begun.stepId ++ bytes begun.name ++ encodeIdempotencyKey begun.idempotencyKey
  | .stepEnd ended => array 3 ++ unsigned ended.parts.1 ++ unsigned ended.parts.2.1

/-- The canonical value at the end of a payload, with the message for one that does not encode. -/
def value? : EntryPayload → Option (CanonicalValue × String)
  | .outcome reported => some (reported.value, "outcome value exceeds canonical bounds")
  | .assert checked => some (checked.detail, "assert detail exceeds canonical bounds")
  | .inputStep step => some (step.value, "input value exceeds canonical bounds")
  | .stepEnd ended => some (ended.parts.2.2, "step-end value exceeds canonical bounds")
  | _ => none

def encode (payload : EntryPayload) : Except CborError Bytes :=
  match payload.value? with
  | none => pure payload.fields
  | some (value, message) => do
      let out ← value.tryEncode.mapError fun _ => CborError.malformedManifest message
      pure (payload.fields ++ out)

end EntryPayload

/-- A journal entry before its content address is assigned. -/
structure EntryData where
  formatVersion : UInt32
  kind : EntryKind
  actor : ActorId
  parents : List EntryHash
  vectorClock : List UInt64
  sequence : UInt64
  payload : EntryPayload

namespace EntryData

def header (data : EntryData) : Bytes :=
  array 7 ++ unsigned data.formatVersion.toUInt64 ++ unsigned data.kind.tag ++
    encodeActor data.actor ++ (array data.parents.length ++ data.parents.flatMap encodeHash) ++
    (array data.vectorClock.length ++ data.vectorClock.flatMap unsigned) ++ unsigned data.sequence

/-- All hash-covered fields in canonical form, under the same cap as decoding. -/
def tryCanonicalBytes (data : EntryData) : Except CborError Bytes :=
  if maxParentsPerEntry < data.parents.length then
    .error .lengthOverflow
  else do
    let payload ← data.payload.encode
    let out := data.header ++ payload
    if maxEntryBytes < out.length then
      .error (.entryTooLarge out.length)
    else
      .ok out

end EntryData

end Ldgr.Format
