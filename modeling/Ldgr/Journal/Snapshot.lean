import Ldgr.Journal.Archive
import Ldgr.Journal.Segment.Frames

/-! Actor snapshots, the manager that schedules them and the file that keeps them. -/

namespace Ldgr

open Base Format Format.Cbor Action Directory

def defaultSnapshotInterval : UInt64 := 100000

structure Snapshot where
  actor : ActorId
  sequence : UInt64
  entryId : EntryHash
  vectorClock : VectorClock
  stateHash : EntryHash
  stateData : Bytes
  deriving DecidableEq

namespace Snapshot

def new (blake3 : Bytes → EntryHash) (actor : ActorId) (sequence : UInt64) (entryId : EntryHash)
    (vectorClock : VectorClock) (stateData : Bytes) : Snapshot :=
  { actor, sequence, entryId, vectorClock, stateHash := blake3 stateData, stateData }

def validate (blake3 : Bytes → EntryHash) (snapshot : Snapshot) : Except JournalError Unit :=
  if blake3 snapshot.stateData ≠ snapshot.stateHash then .error .snapshotHashMismatch else .ok ()

def toCanonicalBytes (snapshot : Snapshot) : Bytes :=
  array 6 ++ unsigned snapshot.actor.id.toUInt64 ++ unsigned snapshot.sequence ++
    bytes snapshot.entryId.toFramedBytes ++ bytes snapshot.vectorClock.encode ++
    bytes snapshot.stateHash.toFramedBytes ++ bytes snapshot.stateData

def decodeFramedHash (field : String) : CborValue → Except JournalError EntryHash
  | .bytes content => (EntryHash.fromFramedBytes content).mapError fun _ =>
    .snapshotStoreError ("snapshot " ++ field ++ " must be a 34-byte framed hash")
  | _ => .error (.snapshotStoreError ("snapshot " ++ field ++ " is not a 34-byte framed hash"))

/-- The components are checked with the same texts as those of a frame, under another error. -/
def decodeVectorClock (bytes : Bytes) : Except JournalError VectorClock :=
  match CborValue.fromCanonicalBytes bytes with
  | .error fault => .error (.snapshotStoreError (toString fault))
  | .ok (.map pairs) =>
    match pairs.mapM decodeClockPair with
    | .error (.segmentCorrupt message) => .error (.snapshotStoreError message)
    | .error fault => .error fault
    | .ok entries => .ok ⟨SortedMap.ofList entries⟩
  | .ok _ => .error (.snapshotStoreError "snapshot vector clock is not a CBOR map")

def decodeActor : CborValue → Except JournalError ActorId
  | .unsigned actor =>
    if actor.toNat < 2 ^ 32 then .ok ⟨actor.toUInt32⟩
    else .error (.snapshotStoreError "snapshot actor exceeds u32")
  | _ => .error (.snapshotStoreError "snapshot actor is not an unsigned integer")

def decodeSequence : CborValue → Except JournalError UInt64
  | .unsigned sequence => .ok sequence
  | _ => .error (.snapshotStoreError "snapshot sequence is not an unsigned integer")

def decodeClockField : CborValue → Except JournalError VectorClock
  | .bytes content => decodeVectorClock content
  | _ => .error (.snapshotStoreError "snapshot vector clock is not bytes")

def decodeStateData : CborValue → Except JournalError Bytes
  | .bytes content => .ok content
  | _ => .error (.snapshotStoreError "snapshot state data is not bytes")

/-- Rejects non-canonical bytes; the state hash is not checked here. -/
def fromCanonicalBytes (input : Bytes) : Except JournalError Snapshot :=
  match CborValue.fromCanonicalBytes input with
  | .error fault => .error (.snapshotStoreError (toString fault))
  | .ok (.array [actor, sequence, entryId, vectorClock, stateHash, stateData]) => do
      let actor ← decodeActor actor
      let sequence ← decodeSequence sequence
      let entryId ← decodeFramedHash "entry id" entryId
      let vectorClock ← decodeClockField vectorClock
      let stateHash ← decodeFramedHash "state hash" stateHash
      let stateData ← decodeStateData stateData
      pure { actor, sequence, entryId, vectorClock, stateHash, stateData }
  | .ok (.array _) => .error (.snapshotStoreError "snapshot encoding has wrong item count")
  | .ok _ => .error (.snapshotStoreError "snapshot encoding is not an array")

end Snapshot

/-! ## Manager -/

structure SnapshotManager where
  snapshots : SortedMap ActorId (List Snapshot)
  snapshotInterval : UInt64

namespace SnapshotManager

def new (interval : UInt64) : SnapshotManager :=
  { snapshots := SortedMap.empty, snapshotInterval := max interval 1 }

def shouldSnapshot (manager : SnapshotManager) (currentSeq : UInt64) : Bool :=
  0 < currentSeq && currentSeq % manager.snapshotInterval == 0

def recordSnapshot (manager : SnapshotManager) (snapshot : Snapshot) : SnapshotManager :=
  { manager with
    snapshots := manager.snapshots.insert snapshot.actor
      ((manager.snapshots.lookup snapshot.actor).getD [] ++ [snapshot]) }

def all (manager : SnapshotManager) : List Snapshot :=
  manager.snapshots.entries.flatMap Prod.snd

def validateAll (blake3 : Bytes → EntryHash) (manager : SnapshotManager) (journal : Journal) :
    Except JournalError Unit :=
  manager.all.forM fun snapshot => do
    snapshot.validate blake3
    if (journal.get snapshot.entryId).isNone then throw (.missingParent snapshot.entryId)

end SnapshotManager

/-! ## Store -/

def snapshotFormatVersion : Nat := 2

def snapshotChainOffset : Nat := 8

def snapshotHeaderLen : Nat := 40

def snapshotIo (fault : IoError) : JournalError :=
  .snapshotStoreError fault.message

variable (blake3 : Bytes → EntryHash)

def snapshotChain (chain : EntryHash) (record : Bytes) : EntryHash :=
  blake3 (chain.digest.1 ++ record)

def snapshotHeader (chain : EntryHash) : Bytes :=
  magicSnapshotStore ++ beBytes 4 snapshotFormatVersion ++ chain.digest.1

def checkSnapshotHeader (bytes : Bytes) : Except JournalError Unit :=
  if bytes.take 4 ≠ magicSnapshotStore then
    .error (.snapshotStoreError "snapshot file magic mismatch")
  else if beAt 4 bytes 4 ≠ snapshotFormatVersion then
    .error (.snapshotStoreError "unsupported snapshot format version")
  else .ok ()

def encodeSnapshotRecord (record : Bytes) : Bytes :=
  leBytes 8 record.length ++ record

/-- One record and the snapshot it holds. -/
def readSnapshotRecord : Reader UInt8 JournalError (Bytes × Snapshot) := do
  let length ← Reader.take 8 .snapshotHashMismatch
  let record ← Reader.take (leNat length) .snapshotHashMismatch
  let snapshot ← Reader.ofExcept (Snapshot.fromCanonicalBytes record)
  pure (record, snapshot)

def parseSnapshots (bytes : Bytes) : Except JournalError (List Snapshot) :=
  if bytes.length < snapshotHeaderLen then
    .error (.snapshotStoreError "snapshot file is too short")
  else do
    checkSnapshotHeader bytes
    let records ← Reader.all readSnapshotRecord (bytes.drop snapshotHeaderLen)
    if (records.map Prod.fst).foldl (snapshotChain blake3) (initialChain blake3) ≠
        hashAt bytes snapshotChainOffset then
      .error .snapshotHashMismatch
    else .ok (records.map Prod.snd)

/-- The snapshot file open for appending, with the position of its cursor. -/
structure SnapshotStore where
  position : Nat
  chain : EntryHash

namespace SnapshotStore

def new : Action Disk JournalError SnapshotStore := do
  mapError snapshotIo createDirAll
  if ← isFile .snapshots then
    mapError snapshotIo (openFile .snapshots)
    let bytes ← mapError snapshotIo (read .snapshots)
    if bytes.length < snapshotHeaderLen then
      fail (.snapshotStoreError "failed to fill whole buffer")
    else
      ofExcept (checkSnapshotHeader bytes)
      pure { position := bytes.length, chain := hashAt bytes snapshotChainOffset }
  else
    let chain := initialChain blake3
    mapError snapshotIo do
      create .snapshots
      append .snapshots magicSnapshotStore
      append .snapshots (beBytes 4 snapshotFormatVersion)
      append .snapshots chain.digest.1
    pure { position := snapshotHeaderLen, chain }

/-- Writes at the cursor and moves it on; a refused write leaves it. -/
def write (bytes : Bytes) : Action (SnapshotStore × Disk) JournalError Unit := do
  let (store, _) ← get
  zoom Prod.snd (fun state disk => (state.1, disk))
    (mapError snapshotIo (writeAt .snapshots store.position bytes))
  modify fun (store, disk) => ({ store with position := store.position + bytes.length }, disk)

def seek (position : Nat) : Action (SnapshotStore × Disk) JournalError Unit :=
  modify fun (store, disk) => ({ store with position }, disk)

def seekEnd : Action (SnapshotStore × Disk) JournalError Unit :=
  modify fun (store, disk) =>
    ({ store with position := ((disk.files.lookup .snapshots).getD []).length }, disk)

/-- Appends one snapshot: the record at the end, then the chain in the header. -/
def append (snapshot : Snapshot) : Action (SnapshotStore × Disk) JournalError Unit := do
  let (store, _) ← get
  let record := snapshot.toCanonicalBytes
  let next := snapshotChain blake3 store.chain record
  write (leBytes 8 record.length)
  write record
  seek snapshotChainOffset
  write next.digest.1
  seekEnd
  modify fun (store, disk) => ({ store with chain := next }, disk)

def load : Action Disk JournalError (List Snapshot) := do
  if ← isFile .snapshots then
    let bytes ← mapError snapshotIo (read .snapshots)
    ofExcept (parseSnapshots blake3 bytes)
  else
    pure []

end SnapshotStore

end Ldgr
