import Ldgr.Journal.Segment.File

/-! The on-disk segment store: an open writer with its recovery log, sealed segments kept loose or in
the archive, and the manifest. -/

namespace Ldgr

open Base Format Action Directory

/-- Retention tier of a store. Every tier is non-destructive. -/
inductive RetentionClass where
  | hot
  | warm
  | cold
  deriving DecidableEq

namespace RetentionClass

def toU8 : RetentionClass → UInt8
  | hot => 0
  | warm => 1
  | cold => 2

def fromU8 (value : UInt8) : Option RetentionClass :=
  match value.toNat with
  | 0 => some hot
  | 1 => some warm
  | 2 => some cold
  | _ => none

end RetentionClass

def keepTail : Nat := 2

def walBufferCapacity : Nat := 8 * 1024

structure SegmentStore where
  dir : Disk
  sealed : List SealedSegment
  /-- Sealed segments whose bytes live in the archive. -/
  archived : List ArchiveRecord
  retention : RetentionClass
  writer : SegmentWriter
  /-- The open recovery log, by the bytes its buffer has not written yet. -/
  wal : Option Bytes
  nextSegmentId : UInt64

namespace SegmentStore

/-- A computation on the directory alone. -/
def onDir {α : Type} (action : Action Disk JournalError α) : Action SegmentStore JournalError α :=
  zoom dir (fun store dir => { store with dir }) action

def disk {α : Type} (action : Action Disk IoError α) : Action SegmentStore JournalError α :=
  onDir (mapError segmentIo action)

/-! ## Reading -/

def segmentBytes (id : UInt64) : Action SegmentStore JournalError Bytes := do
  match (← get).archived.lookup id with
  | some bytes => pure bytes
  | none => disk (read (.segment id))

variable (host : Host)

def decompressedBlock (segment : SealedSegment) : Action SegmentStore JournalError Bytes := do
  let bytes ← segmentBytes segment.id
  let start := segment.dataOffset.toNat
  if bytes.length < start + segment.compressedLen.toNat then
    fail (.segmentCorrupt ("segment " ++ toString segment.id ++
      " compressed block is truncated"))
  else
    let block ← ofExcept (decodeSegmentBlock host (slice bytes start segment.compressedLen.toNat))
    if block.length ≠ segment.uncompressedLen.toNat then
      fail (.segmentCorrupt ("segment " ++ toString segment.id ++
        " uncompressed length mismatch: expected " ++ toString segment.uncompressedLen ++ ", got " ++
        toString block.length))
    else pure block

def segmentEntries (segment : SealedSegment) : Action SegmentStore JournalError (List Entry) := do
  let block ← decompressedBlock host segment
  ofExcept (blockEntries host.blake3 block)

def collectEntries (entries : List Entry) (segment : SealedSegment) :
    Action SegmentStore JournalError (List Entry) := do
  let found ← segmentEntries host segment
  pure (entries ++ found)

/-- All persisted entries: those of the sealed segments, then those of the open writer. -/
def entriesInAppendOrder : Action SegmentStore JournalError (List Entry) := do
  let store ← get
  let sealedEntries ← store.sealed.foldlM (collectEntries host) []
  let unsealed ← ofExcept (blockEntries host.blake3 store.writer.buffer)
  pure (sealedEntries ++ unsealed)

/-! ## Manifest -/

/-- One record: the id, metadata that loading skips, and the archived and fault flags. -/
def encodeManifestRecord (archived : Bool) (segment : SealedSegment) : Bytes :=
  beBytes 8 segment.id.toNat ++ (beBytes 8 segment.entryCount.toNat ++
    beBytes 8 segment.uncompressedLen.toNat ++ beBytes 8 segment.compressedLen.toNat ++
    beBytes 4 segment.sampleInterval.toNat ++ beBytes 8 segment.samples.length ++
    segment.rootHash.digest.1) ++
    [archived.toUInt8 ||| (segment.containsFaultRelevant.toUInt8 <<< 1)]

def manifestVersion : Nat := 2

variable (store : SegmentStore)

def manifestBytes : Bytes :=
  encodePrefix magicStoreManifest 0 ++ beBytes 4 manifestVersion ++ [store.retention.toU8] ++
    beBytes 8 store.sealed.length ++
    store.sealed.flatMap fun segment =>
      encodeManifestRecord ((store.archived.map Prod.fst).contains segment.id) segment

def writeManifest : Action SegmentStore JournalError Unit := do
  let store ← get
  disk (replace .manifestTmp .manifest store.manifestBytes)

/-! ## Retention -/

def shouldKeepLoose (segment : SealedSegment) (tailStart : UInt64) : Bool :=
  match store.retention with
  | .hot => true
  | .warm => segment.containsFaultRelevant || tailStart ≤ segment.id
  | .cold => false

def newestTailStart : UInt64 :=
  let ids := (store.sealed.map (·.id)).insertionSort (· ≤ ·)
  if ids.length ≤ keepTail then 0 else ids.getD (ids.length - keepTail) 0

def writeLooseFile (id : UInt64) (bytes : Bytes) : Action SegmentStore JournalError Unit :=
  disk (replace (.segmentTmp id) (.segment id) bytes)

/-- What one pass over the sealed segments has found: the records that stay archived, the loose
segments to archive, and whether a record was taken out. -/
structure RetainPlan where
  archiveMap : SortedMap UInt64 Bytes
  pendingAppend : List ArchiveRecord
  needsRebuild : Bool

def RetainPlan.visit (tailStart : UInt64) (plan : RetainPlan) (segment : SealedSegment) :
    Action SegmentStore JournalError RetainPlan := do
  let store ← get
  match store.shouldKeepLoose segment tailStart, plan.archiveMap.lookup segment.id with
  | true, some bytes =>
    writeLooseFile segment.id bytes
    pure { plan with archiveMap := plan.archiveMap.erase segment.id, needsRebuild := true }
  | false, none =>
    let bytes ← disk (read (.segment segment.id))
    pure { plan with pendingAppend := plan.pendingAppend ++ [(segment.id, bytes)] }
  | _, _ => pure plan

/-- The archive with exactly `records`; an empty one is removed. -/
def rewriteArchive (records : List ArchiveRecord) : Action SegmentStore JournalError Unit :=
  if records.isEmpty then disk (removeIfPresent .archive)
  else onDir (ArchiveStore.writeAll host.blake3 records)

def appendToArchive (records : List ArchiveRecord) : Action SegmentStore JournalError Unit := do
  if records.isEmpty then pure ()
  else
    let archive ← onDir (ArchiveStore.new host.blake3)
    let _ ← records.foldlM (fun archive record =>
      onDir (archive.append host.blake3 record.1 record.2)) archive

/-- A rebuilt archive also holds the pending records; otherwise they are appended to it. -/
def RetainPlan.updateArchive (plan : RetainPlan) :
    Action SegmentStore JournalError (SortedMap UInt64 Bytes) := do
  if plan.needsRebuild then
    let archiveMap := plan.pendingAppend.foldl (fun map record => map.insert record.1 record.2) plan.archiveMap
    rewriteArchive host archiveMap.entries
    pure archiveMap
  else
    appendToArchive host plan.pendingAppend
    pure plan.archiveMap

def removeArchivedLoose (archived : SortedMap UInt64 Bytes) (segment : SealedSegment) :
    Action SegmentStore JournalError Unit :=
  if (archived.lookup segment.id).isSome then
    disk (removeIfPresent (.segment segment.id))
  else pure ()

def retain : Action SegmentStore JournalError Unit := do
  let existing ← onDir (ArchiveStore.load host.blake3)
  let store ← get
  let plan ← store.sealed.foldlM (RetainPlan.visit store.newestTailStart)
    { archiveMap := SortedMap.ofList existing, pendingAppend := [], needsRebuild := false }
  let archiveMap ← plan.updateArchive host
  let archived := archiveMap.insertAbsent plan.pendingAppend
  modify fun store => { store with archived := archived.entries }
  store.sealed.forM (removeArchivedLoose archived)
  writeManifest

def setRetention (retention : RetentionClass) : Action SegmentStore JournalError Unit := do
  modify fun store => { store with retention }
  retain host

/-! ## Recovery log -/

def walPrefix : Bytes :=
  encodePrefix magicWal 0

def ensureWal : Action SegmentStore JournalError Unit := do
  if (← get).wal.isNone then
    disk (create .wal)
    disk (append .wal walPrefix)
    modify fun store => { store with wal := some [] }

/-- Writes out what the buffer holds; on a fault it keeps holding it. -/
def flushWal (pending : Bytes) : Action SegmentStore JournalError Unit := do
  if pending.isEmpty then pure ()
  else
    disk (append .wal pending)
    modify fun store => { store with wal := some [] }

/-- Written out when `bytes` do not fit behind it. -/
def makeRoom (pending bytes : Bytes) : Action SegmentStore JournalError Unit :=
  if walBufferCapacity - pending.length < bytes.length then flushWal pending else pure ()

/-- A buffered write: held back while there is room, written directly when larger than the buffer. -/
def writeWal (bytes : Bytes) : Action SegmentStore JournalError Unit := do
  match (← get).wal with
  | none => pure ()
  | some pending =>
    if bytes.length < walBufferCapacity - pending.length then
      modify fun store => { store with wal := some (pending ++ bytes) }
    else
      makeRoom pending bytes
      if walBufferCapacity ≤ bytes.length then disk (append .wal bytes)
      else modify fun store => { store with wal := store.wal.map (· ++ bytes) }

/-- Dropping the log writes out its buffer, ignoring a fault. -/
def dropWal : Action SegmentStore JournalError Unit := do
  match (← get).wal with
  | none => pure ()
  | some pending =>
    ignore (flushWal pending)
    modify fun store => { store with wal := none }

/-- The directory after the store is dropped. -/
def close : Disk :=
  (dropWal store).2.dir

/-! ## Appending and sealing -/

/-- Seals the open writer into a segment file and resets the log. The writer is taken first, so a
fault while sealing leaves it empty. -/
def sealWriter : Action SegmentStore JournalError Unit := do
  let store ← get
  if store.writer.isEmpty then pure ()
  else
    modify fun store => { store with writer := SegmentWriter.new }
    let segment ← onDir (store.writer.sealSegment host store.nextSegmentId)
    modify fun store =>
      { store with nextSegmentId := store.nextSegmentId + 1, sealed := store.sealed ++ [segment] }
    dropWal
    disk (removeIfPresent .wal)
    if store.retention ≠ .hot then retain host

def onWriter {α : Type} (action : Action SegmentWriter JournalError α) : Action SegmentStore JournalError α :=
  zoom writer (fun store writer => { store with writer }) action

def sealIfFull : Action SegmentStore JournalError Unit := do
  if (← get).writer.shouldSeal then sealWriter host

def append (host : Host) (entry : Entry) : Action SegmentStore JournalError Unit := do
  ensureWal
  let frame ← onWriter (SegmentWriter.append entry)
  writeWal frame
  sealIfFull host

/-- Writes to the log what the writer holds past `start`. -/
def writeWalRange (start : Nat) : Action SegmentStore JournalError Unit := do
  writeWal ((← get).writer.buffer.drop start)

def appendSlice (host : Host) (entries : List Entry) : Action SegmentStore JournalError Unit := do
  if entries.isEmpty then pure ()
  else
    ensureWal
    let start := (← get).writer.buffer.length
    onWriter (SegmentWriter.appendSlice entries)
    writeWalRange start
    sealIfFull host

def appendFrames (host : Host) (frames : List EntryFrame) : Action SegmentStore JournalError Unit := do
  if frames.isEmpty then pure ()
  else
    ensureWal
    let start := (← get).writer.buffer.length
    onWriter (modify (SegmentWriter.appendFrames frames))
    writeWalRange start
    sealIfFull host

end SegmentStore

end Ldgr
