import Ldgr.Base.Action
import Ldgr.Journal.Clock

/-! Content-addressed immutable causal DAG with a frozen base and a post-fork overlay. -/

namespace Ldgr

open Base Format

def overlayThreshold : Nat := 1024

inductive JournalError where
  | missingParent (hash : EntryHash)
  | nonMonotonicSequence (actor : ActorId) (expected actual : UInt64)
  | invariantViolation (message : String)
  | invalidPayload (message : String)
  | segmentCorrupt (message : String)
  | snapshotHashMismatch
  | snapshotStoreError (message : String)
  | archiveHashMismatch
  deriving DecidableEq

def hexByte (byte : UInt8) : String :=
  String.ofList [Nat.digitChar (byte.toNat / 16), Nat.digitChar (byte.toNat % 16)]

instance : ToString JournalError where
  toString
    | .missingParent hash =>
      "missing parent [" ++ ", ".intercalate ((hash.digest.1.take 4).map hexByte) ++ "]"
    | .nonMonotonicSequence actor expected actual =>
      s!"actor {actor.id} expected sequence {expected}, got {actual}"
    | .invariantViolation message => "journal invariant violated: " ++ message
    | .invalidPayload message => "payload cannot be canonically encoded: " ++ message
    | .segmentCorrupt message => "corrupt segment: " ++ message
    | .snapshotHashMismatch => "snapshot state hash mismatch"
    | .snapshotStoreError message => "corrupt snapshot store: " ++ message
    | .archiveHashMismatch => "corrupt archive: hash chain mismatch"

/-! ## Entries -/

structure Entry where
  id : EntryHash
  data : EntryData
  vectorClock : VectorClock

/-- An entry with its canonical bytes and the length of their data prefix. -/
structure RecordedEntry where
  entry : Entry
  dataLen : Nat
  scratch : Bytes

variable (blake3 : Bytes → EntryHash)

def RecordedEntry.new (data : EntryData) (vectorClock : VectorClock) : Except JournalError RecordedEntry :=
  match data.tryCanonicalBytes with
  | .error fault => .error (.invalidPayload (toString fault))
  | .ok encoded =>
    let scratch := encoded ++ vectorClock.encode
    .ok { entry := { id := blake3 scratch, data, vectorClock }, dataLen := encoded.length, scratch }

/-- The content address is taken over the canonical data followed by the clock. -/
def Entry.new (blake3 : Bytes → EntryHash) (data : EntryData) (vectorClock : VectorClock) :
    Except JournalError Entry :=
  (RecordedEntry.new blake3 data vectorClock).map (·.entry)

/-! ## State -/

structure Journal where
  base : AList fun _ : EntryHash => Entry
  overlay : AList fun _ : EntryHash => Entry
  heads : AList fun _ : ActorId => EntryHash
  order : List EntryHash
  overlayOrder : List EntryHash

namespace Journal

def new : Journal :=
  { base := ∅, overlay := ∅, heads := ∅, order := [], overlayOrder := [] }

variable (journal : Journal)

/-- A fork shares every entry; only the sharing itself is not part of the model. -/
def fork : Journal :=
  journal

/-- The base is extended in place, so nothing happens while another journal shares it. -/
def freezeOverlay (shared : Bool) (journal : Journal) : Journal :=
  if shared then journal
  else
    { journal with
      base := journal.overlay ∪ journal.base
      overlay := ∅
      order := journal.order ++ journal.overlayOrder
      overlayOrder := [] }

def freezeIfFull (shared : Bool) (journal : Journal) : Journal :=
  if overlayThreshold ≤ journal.overlay.entries.length then journal.freezeOverlay shared
  else journal

def get (id : EntryHash) : Option Entry :=
  (journal.overlay.lookup id).or (journal.base.lookup id)

def ids : List EntryHash :=
  journal.order ++ journal.overlayOrder

def len : Nat :=
  journal.order.length + journal.overlayOrder.length

def entries : List Entry :=
  journal.ids.filterMap journal.get

def headForActor (actor : ActorId) : Option EntryHash :=
  journal.heads.lookup actor

def rootHash : EntryHash :=
  blake3 (journal.ids.flatMap fun id => id.digest.1)

def insert (journal : Journal) (entry : Entry) (actor : ActorId) : Journal :=
  { journal with
    overlay := journal.overlay.insert entry.id entry
    overlayOrder := journal.overlayOrder ++ [entry.id]
    heads := journal.heads.insert actor entry.id }

/-! ## Append -/

/-- First occurrence wins; a parent past the cap fails closed. -/
def pushParents (parents : List EntryHash) : List EntryHash → Except JournalError (List EntryHash)
  | [] => .ok parents
  | parent :: observed =>
    if parent ∈ parents then pushParents parents observed
    else if maxParentsPerEntry ≤ parents.length then
      .error (.invalidPayload "parent count exceeds format limit")
    else pushParents (parents ++ [parent]) observed

/-- Ordered parents: the actor's head, the observed parents, then the chained entry. -/
def assembleParents (head : Option EntryHash) (observed : List EntryHash)
    (chain : Option EntryHash) : Except JournalError (List EntryHash) := do
  let parents ← pushParents head.toList observed
  pushParents parents chain.toList

def getParent (id : EntryHash) : Except JournalError Entry :=
  match journal.get id with
  | some entry => .ok entry
  | none => .error (.missingParent id)

def mergeParents (parents : List EntryHash) : Except JournalError VectorClock :=
  parents.foldlM (fun clock parent => (journal.getParent parent).map (clock.merge ·.vectorClock))
    VectorClock.new

/-- The clock of a single parent is taken as it is, without a merge. -/
def parentClock (parents : List EntryHash) (headEntry : Option Entry) : Except JournalError VectorClock :=
  match parents, headEntry with
  | [_], some entry => .ok entry.vectorClock
  | [parent], none => (journal.getParent parent).map (·.vectorClock)
  | parents, _ => journal.mergeParents parents

/-- The entry `append` stores, or the first error on the way to it. -/
def prepareAppend (kind : EntryKind) (actor : ActorId) (observed : List EntryHash) (payload : EntryPayload) :
    Except JournalError Entry := do
  let previousHead := journal.headForActor actor
  let parents ← assembleParents previousHead observed none
  let headEntry ← previousHead.mapM journal.getParent
  let clock ← journal.parentClock parents headEntry
  Entry.new blake3
    { formatVersion, kind, actor, parents, vectorClock := []
      sequence := headEntry.elim 0 fun entry => saturatingAdd entry.data.sequence 1
      payload }
    (clock.incremented actor)

/-- `shared` tells whether a fork holds the base when the overlay is due to be frozen. -/
def append (shared : Bool) (kind : EntryKind) (actor : ActorId)
    (observed : List EntryHash) (payload : EntryPayload) : Action Journal JournalError EntryHash := do
  let journal ← Action.get
  let entry ← Action.ofExcept (journal.prepareAppend blake3 kind actor observed payload)
  Action.modify fun journal => (journal.insert entry actor).freezeIfFull shared
  pure entry.id

end Journal

/-! ## Batches -/

structure BatchEntry where
  kind : EntryKind
  actor : ActorId
  observedParents : List EntryHash
  /-- Append the previous batch entry id as trailing parent. -/
  chainPrevious : Bool
  payload : EntryPayload

structure EntryFrame where
  id : EntryHash
  dataLen : Nat
  payload : Bytes
  faultRelevant : Bool

def kindIsFaultRelevant (kind : EntryKind) : Bool :=
  kind = .fault ∨ kind = .outcome ∨ kind = .assert

def RecordedEntry.frame (recorded : RecordedEntry) : EntryFrame :=
  { id := recorded.entry.id
    dataLen := recorded.dataLen
    payload := recorded.scratch
    faultRelevant := kindIsFaultRelevant recorded.entry.data.kind }

namespace Journal

def batchedClock (journal : Journal) (parents : List EntryHash) (previousHead : Option EntryHash)
    (headInfo : Option (UInt64 × VectorClock)) : Except JournalError VectorClock :=
  match parents with
  | [parent] =>
    if previousHead.isSome then .ok (headInfo.elim VectorClock.new Prod.snd)
    else (journal.getParent parent).map (·.vectorClock)
  | parents => journal.mergeParents parents

/-- The body of the batch loop up to the stores; `previous` is the last id of the batch so far. -/
def prepareBatched (journal : Journal) (previous : Option EntryHash)
    (spec : BatchEntry) : Except JournalError RecordedEntry := do
  let previousHead := journal.headForActor spec.actor
  let chain := if spec.chainPrevious then previous else none
  let parents ← assembleParents previousHead spec.observedParents chain
  let headInfo ← previousHead.mapM fun head =>
    (journal.getParent head).map fun entry => (entry.data.sequence, entry.vectorClock)
  let clock ← journal.batchedClock parents previousHead headInfo
  RecordedEntry.new blake3
    { formatVersion, kind := spec.kind, actor := spec.actor, parents, vectorClock := []
      sequence := headInfo.elim 0 fun (previousSequence, _) => saturatingAdd previousSequence 1
      payload := spec.payload }
    (clock.incremented spec.actor)

/-- The batch loop; it returns what it has appended. -/
def appendEntries (blake3 : Bytes → EntryHash) :
    Option EntryHash → List BatchEntry → Action Journal JournalError (List RecordedEntry)
  | _, [] => pure []
  | previous, spec :: batch => do
      let journal ← Action.get
      let recorded ← Action.ofExcept (journal.prepareBatched blake3 previous spec)
      Action.modify fun journal => journal.insert recorded.entry spec.actor
      let rest ← appendEntries blake3 (some recorded.entry.id) batch
      pure (recorded :: rest)

/-- Stops at the first invalid entry, leaving the applied prefix in place and the overlay as it
is. -/
def appendBatchImpl (shared : Bool) (batch : List BatchEntry) :
    Action Journal JournalError (List RecordedEntry) := do
  let appended ← appendEntries blake3 none batch
  if batch.isEmpty then pure appended
  else
    Action.modify (freezeIfFull shared)
    pure appended

def appendBatch (shared : Bool) (batch : List BatchEntry) : Action Journal JournalError (List EntryHash) := do
  let appended ← appendBatchImpl blake3 shared batch
  pure (appended.map (·.entry.id))

def appendBatchWithFrames (shared : Bool) (batch : List BatchEntry) :
    Action Journal JournalError (List EntryHash × List EntryFrame) := do
  let appended ← appendBatchImpl blake3 shared batch
  pure (appended.map (·.entry.id), appended.map RecordedEntry.frame)

end Journal

end Ldgr
