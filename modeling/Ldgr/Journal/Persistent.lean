import Ldgr.Journal.Segment.Recovery
import Ldgr.Journal.Snapshot

/-! Durable facade over an in-memory journal and a segment store: appends write both, and a fault of
the store rolls the memory back. -/

namespace Ldgr

open Base Format SegmentStore Action

/-- The snapshot file lives in the directory of the store. -/
structure PersistentJournal where
  journal : Journal
  store : SegmentStore
  snapshots : SnapshotManager
  snapshotStore : SnapshotStore

namespace PersistentJournal

def onJournal {α : Type} (action : Action Journal JournalError α) : Action PersistentJournal JournalError α :=
  zoom journal (fun persistent journal => { persistent with journal }) action

def onStore {α : Type} (action : Action SegmentStore JournalError α) :
    Action PersistentJournal JournalError α :=
  zoom store (fun persistent store => { persistent with store }) action

def onSnapshots {α : Type} (action : Action (SnapshotStore × Disk) JournalError α) :
    Action PersistentJournal JournalError α :=
  zoom (fun persistent => (persistent.snapshotStore, persistent.store.dir))
    (fun persistent (snapshotStore, dir) =>
      { persistent with snapshotStore, store := { persistent.store with dir } }) action

/-! ## Opening -/

/-- What a journal is made of, built on the store of a directory nothing was read from yet. -/
def build (parts : Action SegmentStore JournalError (Journal × SnapshotManager × SnapshotStore))
    (dir : Disk) : Except JournalError PersistentJournal × Disk :=
  let (result, store) := parts (unread dir)
  (result.map fun (journal, snapshots, snapshotStore) =>
    { journal, store, snapshots, snapshotStore }, store.dir)

variable (host : Host)

def createWithInterval (interval : UInt64) : Disk → Except JournalError PersistentJournal × Disk :=
  build do
    openInternal host true
    let snapshotStore ← onDir (SnapshotStore.new host.blake3)
    pure (Journal.new, SnapshotManager.new interval, snapshotStore)

def create : Disk → Except JournalError PersistentJournal × Disk :=
  createWithInterval host defaultSnapshotInterval

/-- Appends a persisted entry again; its id and its clock must come out the same. -/
def replayEntry (entry : Entry) : Action Journal JournalError Unit := do
  let id ← Journal.append host.blake3 false entry.data.kind entry.data.actor entry.data.parents
    entry.data.payload
  if id ≠ entry.id then
    fail (.invariantViolation ("entry replayed as " ++ hexDebug (id.digest.1.take 4) ++
      " but persisted as " ++ hexDebug (entry.id.digest.1.take 4)))
  else
    match (← get).get id with
    | none => fail (.invariantViolation "replayed entry missing from journal")
    | some replayed =>
      if replayed.vectorClock ≠ entry.vectorClock then
        fail (.invariantViolation ("entry " ++ hexDebug (id.digest.1.take 4) ++
          " vector clock diverges on reload"))
      else pure ()

def replay (entries : List Entry) : Except JournalError Journal :=
  match entries.forM (replayEntry host) Journal.new with
  | (.ok _, journal) => .ok journal
  | (.error fault, _) => .error fault

/-- An existing store, with the journal reconstructed from its entries. -/
def openWithInterval (interval : UInt64) : Disk → Except JournalError PersistentJournal × Disk :=
  build do
    let recorded ← onDir (SnapshotStore.load host.blake3)
    let snapshots := recorded.foldl SnapshotManager.recordSnapshot (SnapshotManager.new interval)
    openInternal host false
    let entries ← entriesInAppendOrder host
    let journal ← ofExcept (replay host entries)
    ofExcept (snapshots.validateAll host.blake3 journal)
    let snapshotStore ← onDir (SnapshotStore.new host.blake3)
    pure (journal, snapshots, snapshotStore)

def openJournal : Disk → Except JournalError PersistentJournal × Disk :=
  openWithInterval host defaultSnapshotInterval

/-! ## Forking -/

/-- A link to the parent's file, or a copy of it where no link can be made. -/
def linkOrCopy (name : FileName) (bytes : Bytes) : Action Disk IoError Unit :=
  fun dir =>
    match Directory.call (fun files =>
        if (files.lookup name).isSome then
          .error { notFound := false, message := "File exists (os error 17)" }
        else .ok ((), files.insert name bytes)) dir with
    | (.error _, after) => Directory.call (fun files => .ok ((), files.insert name bytes)) after
    | done => done

/-- A sealed segment of the parent becomes a loose file of the fork. -/
def shareSegment (parent : SegmentStore) (segment : SealedSegment) : Action Disk JournalError Unit :=
  match parent.archived.lookup segment.id with
  | some bytes => mapError segmentIo
      (Directory.replace (.segmentTmp segment.id) (.segment segment.id) bytes)
  | none =>
    match parent.dir.files.lookup (.segment segment.id) with
    | some bytes => mapError segmentIo (linkOrCopy (.segment segment.id) bytes)
    | none => fail (segmentIo .missing)

/-- The segments of the parent as files, then the rest of its journal appended behind them. -/
def forkParts (parent : PersistentJournal) :
    Action SegmentStore JournalError (Journal × SnapshotManager × SnapshotStore) := do
  onDir (mapError segmentIo Directory.createDirAll)
  onDir (parent.store.sealed.forM (shareSegment parent.store))
  openInternal host false
  let sealedCount := (parent.store.sealed.map SealedSegment.entryCount).sum
  (parent.journal.entries.drop sealedCount.toNat).forM (append host)
  writeManifest
  let snapshotStore ← onDir (SnapshotStore.new host.blake3)
  pure (parent.journal.fork, SnapshotManager.new defaultSnapshotInterval, snapshotStore)

def fork (parent : PersistentJournal) : Disk → Except JournalError PersistentJournal × Disk :=
  build (forkParts host parent)

/-! ## Appending -/

/-- The memory as it was before, when the store fails. -/
def rollingBack {α : Type} (before : Journal) (action : Action PersistentJournal JournalError α) :
    Action PersistentJournal JournalError α :=
  fun persistent =>
    match action persistent with
    | (.error fault, after) => (.error fault, { after with journal := before })
    | done => done

def snapshotIfDue (actor : ActorId) (id : EntryHash) (entry : Entry) :
    Action PersistentJournal JournalError Unit := do
  if (← get).snapshots.shouldSnapshot entry.data.sequence then
    let snapshot := Snapshot.new host.blake3 actor entry.data.sequence id entry.vectorClock []
    onSnapshots (SnapshotStore.append host.blake3 snapshot)
    modify fun persistent =>
      { persistent with snapshots := persistent.snapshots.recordSnapshot snapshot }

/-- The entry under `id`, which was just appended. -/
def appended (before : Journal) (id : EntryHash) : Action PersistentJournal JournalError Entry := do
  match (← get).journal.get id with
  | some entry => pure entry
  | none =>
    modify fun persistent => { persistent with journal := before }
    fail (.invariantViolation "appended entry missing from journal")

def append (host : Host) (kind : EntryKind) (actor : ActorId) (observedParents : List EntryHash)
    (payload : EntryPayload) : Action PersistentJournal JournalError EntryHash := do
  let before := (← get).journal
  let id ← onJournal (Journal.append host.blake3 true kind actor observedParents payload)
  let entry ← appended before id
  rollingBack before (onStore (SegmentStore.append host entry))
  snapshotIfDue host actor id entry
  pure id

/-- An error of the journal leaves the entries before the invalid one in memory. -/
def appendBatch (batch : List BatchEntry) : Action PersistentJournal JournalError (List EntryHash) := do
  let before := (← get).journal
  let (ids, frames) ← onJournal (Journal.appendBatchWithFrames host.blake3 true batch)
  rollingBack before (onStore (SegmentStore.appendFrames host frames))
  ids.forM fun id => do
    let entry ← appended before id
    snapshotIfDue host entry.data.actor id entry
  pure ids

def forceSeal : Action PersistentJournal JournalError Unit :=
  onStore (SegmentStore.sealWriter host)

def setRetention (host : Host) (retention : RetentionClass) : Action PersistentJournal JournalError Unit :=
  onStore (SegmentStore.setRetention host retention)

def writeManifest : Action PersistentJournal JournalError Unit :=
  onStore SegmentStore.writeManifest

end PersistentJournal

end Ldgr
