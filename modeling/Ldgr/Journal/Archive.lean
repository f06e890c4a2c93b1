import Ldgr.Base.Directory
import Ldgr.Journal.Dag
import Ldgr.Format.Frame

/-! The journal directory and its content-addressed archive of sealed segments: a header with record
count and chain hash, then one record per segment. -/

namespace Ldgr

open Base Format Directory Action

/-- The files of a journal directory; a temporary file is renamed to its target when complete. -/
inductive FileName where
  | wal
  | manifest
  | manifestTmp
  | archive
  | archiveTmp
  | snapshots
  | segment (id : UInt64)
  | segmentTmp (id : UInt64)
  deriving DecidableEq

abbrev Disk := Directory FileName

/-- Hashing and compression. Decompression returns what it could produce and the error it then met. -/
structure Host where
  blake3 : Bytes → EntryHash
  encodeAll : Bytes → Bytes
  decode : Bytes → Bytes × Option String

def segmentIo (fault : IoError) : JournalError :=
  .segmentCorrupt fault.message

def archiveFormatVersion : Nat := 1

def archiveHeaderLen : Nat := 48

def archiveRecordCountOffset : Nat := 8

def archiveChainOffset : Nat := 16

variable (blake3 : Bytes → EntryHash)

def initialChain : EntryHash :=
  blake3 []

abbrev ArchiveRecord := UInt64 × Bytes

def ArchiveRecord.encode (record : ArchiveRecord) : Bytes :=
  leBytes 8 record.1.toNat ++ leBytes 8 record.2.length ++ record.2

/-- The chain covers the chain before it and the whole record. -/
def archiveChain (chain : EntryHash) (record : ArchiveRecord) : EntryHash :=
  blake3 (chain.digest.1 ++ ArchiveRecord.encode record)

def archiveHeader (recordCount : UInt64) (chain : EntryHash) : Bytes :=
  magicJournalArchive ++ beBytes 4 archiveFormatVersion ++ beBytes 8 recordCount.toNat ++ chain.digest.1

/-- The digest at `offset`; zeros where the window is too short, as for any failed conversion. -/
def hashAt (bytes : Bytes) (offset : Nat) : EntryHash :=
  if whole : (slice bytes offset 32).length = 32 then ⟨⟨slice bytes offset 32, whole⟩⟩
  else ⟨⟨List.replicate 32 0, length_zeros⟩⟩

def readArchiveRecord : Reader UInt8 JournalError ArchiveRecord := do
  let ordinal ← Reader.take 8 .archiveHashMismatch
  let length ← Reader.take 8 .archiveHashMismatch
  let bytes ← Reader.take (leNat length) .archiveHashMismatch
  pure (UInt64.ofNat (leNat ordinal), bytes)

/-- The checks a header passes before it is trusted. -/
def checkArchiveHeader (bytes : Bytes) : Except JournalError Unit :=
  if bytes.take 4 ≠ magicJournalArchive then .error .archiveHashMismatch
  else if beAt 4 bytes 4 ≠ archiveFormatVersion then .error .archiveHashMismatch
  else .ok ()

def parseArchive (bytes : Bytes) : Except JournalError (List ArchiveRecord) :=
  if bytes.length < archiveHeaderLen then .error .archiveHashMismatch
  else do
    checkArchiveHeader bytes
    let records ← Reader.all readArchiveRecord (bytes.drop archiveHeaderLen)
    if records.foldl (archiveChain blake3) (initialChain blake3) ≠ hashAt bytes archiveChainOffset then
      .error .archiveHashMismatch
    else if UInt64.ofNat records.length ≠ UInt64.ofNat (beAt 8 bytes archiveRecordCountOffset) then
      .error .archiveHashMismatch
    else .ok records

structure ArchiveStore where
  position : Nat
  chain : EntryHash
  recordCount : UInt64

namespace ArchiveStore

def openExisting : Action Disk JournalError ArchiveStore := do
  mapError segmentIo (openFile .archive)
  let bytes ← mapError segmentIo (read .archive)
  if bytes.length < archiveHeaderLen then
    fail (.segmentCorrupt "failed to fill whole buffer")
  else
    ofExcept (checkArchiveHeader bytes)
    pure { position := bytes.length
           chain := hashAt bytes archiveChainOffset
           recordCount := UInt64.ofNat (beAt 8 bytes archiveRecordCountOffset) }

def createEmpty : Action Disk JournalError ArchiveStore := do
  let chain := initialChain blake3
  mapError segmentIo do
    create .archive
    append .archive magicJournalArchive
    append .archive (beBytes 4 archiveFormatVersion)
    append .archive (beBytes 8 0)
    append .archive chain.digest.1
  pure { position := archiveHeaderLen, chain, recordCount := 0 }

def new : Action Disk JournalError ArchiveStore := do
  mapError segmentIo createDirAll
  if ← isFile .archive then openExisting else createEmpty blake3

/-- The writes of one append: the record at the end, then the chain and the count in the header. -/
def writes (store : ArchiveStore) (ordinal : UInt64) (segmentBytes : Bytes) : List (Nat × Bytes) :=
  [(store.position, leBytes 8 ordinal.toNat),
    (store.position + 8, leBytes 8 segmentBytes.length),
    (store.position + 16, segmentBytes),
    (archiveChainOffset, (archiveChain blake3 store.chain (ordinal, segmentBytes)).digest.1),
    (archiveRecordCountOffset, beBytes 8 (store.recordCount + 1).toNat)]

def append (store : ArchiveStore) (ordinal : UInt64)
    (segmentBytes : Bytes) : Action Disk JournalError ArchiveStore := do
  mapError segmentIo (writeEach .archive (store.writes blake3 ordinal segmentBytes))
  pure { position := store.position + 16 + segmentBytes.length
         chain := archiveChain blake3 store.chain (ordinal, segmentBytes)
         recordCount := store.recordCount + 1 }

def load : Action Disk JournalError (List ArchiveRecord) := do
  if ← isFile .archive then
    let bytes ← mapError segmentIo (read .archive)
    ofExcept (parseArchive blake3 bytes)
  else
    pure []

def writeAll (records : List ArchiveRecord) : Action Disk JournalError Unit :=
  mapError segmentIo (replace .archiveTmp .archive (archiveHeader (UInt64.ofNat records.length)
        (records.foldl (archiveChain blake3) (initialChain blake3)) ++
      records.flatMap ArchiveRecord.encode))

end ArchiveStore

end Ldgr
