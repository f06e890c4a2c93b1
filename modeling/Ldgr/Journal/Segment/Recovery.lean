import Ldgr.Journal.Segment.Store

/-! Opening a store: temporary files are removed, sealed segments are loaded by the manifest or by
what the directory holds, and the recovery log is cut to its complete frames and replayed. -/

namespace Ldgr

open Base Format Directory Action

/-- What a temporary file is renamed to is not one itself. -/
def FileName.isTemporary : FileName → Bool
  | .segmentTmp _ | .manifestTmp | .archiveTmp => true
  | _ => false

def FileName.segmentId : FileName → Option UInt64
  | .segment id => some id
  | _ => none

/-! ## Manifest -/

structure ManifestEntry where
  id : UInt64
  faultRelevant : Bool
  deriving DecidableEq

def manifestRecordMetaLen : Nat := 68

def unexpectedEof : JournalError :=
  .segmentCorrupt "failed to fill whole buffer"

def readManifestEntry : Reader UInt8 JournalError ManifestEntry := do
  let id ← Reader.take 8 unexpectedEof
  let _ ← Reader.take manifestRecordMetaLen unexpectedEof
  let flags ← Reader.next unexpectedEof
  pure { id := UInt64.ofNat (beNat id), faultRelevant := flags &&& 2 ≠ 0 }

def readManifestContents : Reader UInt8 JournalError (RetentionClass × List ManifestEntry) := do
  let version ← Reader.take 4 unexpectedEof
  Reader.require (beNat version = SegmentStore.manifestVersion) (.segmentCorrupt "unsupported manifest version")
  let byte ← Reader.next unexpectedEof
  let retention ← Reader.ofExcept (match RetentionClass.fromU8 byte with
    | some retention => .ok retention
    | none => .error (.segmentCorrupt "invalid retention class in manifest"))
  let count ← Reader.take 8 unexpectedEof
  let entries ← Reader.many readManifestEntry (beNat count)
  pure (retention, entries)

def readManifest (bytes : Bytes) : Except JournalError (RetentionClass × List ManifestEntry) :=
  if bytes.length < framePrefixLen then .error unexpectedEof
  else
    match parsePrefix (bytes.take framePrefixLen) magicStoreManifest with
    | .error fault =>
      .error (.segmentCorrupt ("store manifest prefix invalid: " ++ fault.debug))
    | .ok _ => (readManifestContents (bytes.drop framePrefixLen)).map Prod.fst

/-! ## Recovery log -/

/-- The end of the complete frames from `offset` on. Every frame is longer than one byte, so the
length of the log is enough fuel. -/
def completeFramesEnd (bytes : Bytes) : Nat → Nat → Nat
  | 0, offset => offset
  | fuel + 1, offset =>
    if bytes.length < offset + 8 then offset
    else if leAt 8 bytes offset < minFramePayload then offset
    else if bytes.length < offset + 8 + leAt 8 bytes offset then offset
    else completeFramesEnd bytes fuel (offset + 8 + leAt 8 bytes offset)

def lastCompleteFrameEnd (bytes : Bytes) : Nat :=
  if bytes.length < framePrefixLen then 0
  else completeFramesEnd bytes bytes.length framePrefixLen

namespace SegmentStore

def removeTemporary (name : FileName) : Action Disk IoError Unit :=
  if name.isTemporary then ignore (remove name) else pure ()

/-- Cleanup is best effort: no fault stops it. -/
def recoverTempFiles : Action SegmentStore JournalError Unit :=
  ignore (disk do
    let names ← readDir
    names.forM removeTemporary)

variable (host : Host)

def readSegmentMeta (id : UInt64) : Action SegmentStore JournalError (Option SealedSegment) := do
  if ← onDir (isFile (.segment id)) then
    let bytes ← disk (read (.segment id))
    ofExcept (parseSegmentBytes host bytes id)
  else
    pure none

def discoverSegmentIds : Action SegmentStore JournalError (List UInt64) := do
  let names ← disk readDir
  pure ((names.filterMap FileName.segmentId).insertionSort (· ≤ ·))

/-- A segment from its archived bytes, or from its loose file. -/
def parseSegment (archived : SortedMap UInt64 Bytes) (id : UInt64) :
    Action SegmentStore JournalError (Option SealedSegment) :=
  match archived.lookup id with
  | some bytes => ofExcept (parseSegmentBytes host bytes id)
  | none => readSegmentMeta host id

/-- The listed segments. Only the last one may be missing or cut short, and only when loose. -/
def loadSegments (host : Host) (archived : SortedMap UInt64 Bytes) (flags : SortedMap UInt64 Bool) :
    List UInt64 → Action SegmentStore JournalError (List SealedSegment)
  | [] => pure []
  | id :: ids => do
      match ← parseSegment host archived id with
      | some segment =>
        let segments ← loadSegments host archived flags ids
        pure ({ segment with containsFaultRelevant := (flags.lookup id).getD false } :: segments)
      | none =>
        if ids.isEmpty && (archived.lookup id).isNone then pure []
        else fail (.segmentCorrupt ("segment " ++ toString id ++
          " is corrupt and is not the tail"))

def readManifestFile : Action SegmentStore JournalError (RetentionClass × List ManifestEntry) := do
  if ← onDir (isFile .manifest) then
    let bytes ← disk (read .manifest)
    ofExcept (readManifest bytes)
  else
    pure (.hot, [])

/-- The ids a manifest lists; without any, those of the directory and of the archive. -/
def listSegmentIds (manifest : List ManifestEntry) (archived : SortedMap UInt64 Bytes) :
    Action SegmentStore JournalError (List UInt64) := do
  if manifest.isEmpty then
    let ids ← discoverSegmentIds
    let more := (archived.entries.map Prod.fst).filter fun id => !ids.contains id
    pure ((ids ++ more).insertionSort (· ≤ ·))
  else
    pure (manifest.map (·.id))

/-- A hot class does not fit a store with archived segments. -/
def effectiveRetention (retention : RetentionClass) (sealed : List SealedSegment)
    (archived : List ArchiveRecord) : RetentionClass :=
  if !archived.isEmpty && retention = .hot then
    if sealed.all fun segment => (archived.map Prod.fst).contains segment.id then .cold else .warm
  else retention

def loadSealedSegments : Action SegmentStore JournalError Unit := do
  let (retention, manifest) ← readManifestFile
  let records ← onDir (ArchiveStore.load host.blake3)
  let archivedBytes := SortedMap.ofList records
  let ids ← listSegmentIds manifest archivedBytes
  modify fun store => { store with nextSegmentId := (ids.getLast?.map (· + 1)).getD 0 }
  let flags := SortedMap.ofList (manifest.map fun entry => (entry.id, entry.faultRelevant))
  let sealed ← loadSegments host archivedBytes flags ids
  let archived := archivedBytes.entries.filter fun record =>
    (sealed.map (·.id)).contains record.1
  modify fun store =>
    { store with sealed, archived, retention := effectiveRetention retention sealed archived }

/-- Entries of the log that no sealed segment holds. -/
def unsealedEntries (sealedIds : List EntryHash) (bytes : Bytes) (stop : Nat) :
    Except JournalError (List Entry) :=
  foldFrames host.blake3 bytes stop (fun recovered _ entry =>
    .ok (if entry.id ∈ sealedIds then recovered else recovered ++ [entry])) bytes.length framePrefixLen
    []

/-- The prefix is checked on the bytes as they were before the cut. -/
def checkWalPrefix (bytes : Bytes) : Except JournalError Unit :=
  match parsePrefix bytes magicWal with
  | .error fault => .error (.segmentCorrupt ("WAL prefix invalid: " ++ fault.debug))
  | .ok framePrefix =>
    if framePrefix.headerLen ≠ 0 then .error (.segmentCorrupt "WAL header_len must be 0")
    else .ok ()

def truncateWal (truncateTo length : Nat) : Action SegmentStore JournalError Unit :=
  if truncateTo < length then disk (setLen .wal truncateTo) else pure ()

/-- The log is opened again only when it holds something. -/
def reopenWal : Action SegmentStore JournalError Unit := do
  if !(← get).writer.index.isEmpty then
    disk (openFile .wal)
    modify fun store => { store with wal := some [] }

def restoreEntry (entry : Entry) : Action SegmentStore JournalError Unit := do
  let _ ← onWriter (SegmentWriter.append entry)

def replayWal (bytes : Bytes) : Action SegmentStore JournalError Unit := do
  let truncateTo := lastCompleteFrameEnd bytes
  truncateWal truncateTo bytes.length
  ofExcept (checkWalPrefix bytes)
  let persisted ← entriesInAppendOrder host
  let recovered ← ofExcept (unsealedEntries host (persisted.map (·.id)) bytes truncateTo)
  recovered.forM restoreEntry
  reopenWal

def recoverWal : Action SegmentStore JournalError Unit := do
  if ← onDir (isFile .wal) then
    let bytes ← disk (read .wal)
    if bytes.isEmpty then pure () else replayWal host bytes

/-! ## Opening -/

def openInternal (fresh : Bool) : Action SegmentStore JournalError Unit := do
  disk createDirAll
  recoverTempFiles
  if fresh then pure () else loadSealedSegments host
  recoverWal host

/-- A store over a directory nothing was read from yet. -/
def unread (dir : Disk) : SegmentStore where
  dir := dir
  sealed := []
  archived := []
  retention := .hot
  writer := SegmentWriter.new
  wal := none
  nextSegmentId := 0

def new (dir : Disk) : Except JournalError Unit × SegmentStore :=
  openInternal host true (unread dir)

def load (dir : Disk) : Except JournalError Unit × SegmentStore :=
  openInternal host false (unread dir)

end SegmentStore

end Ldgr
