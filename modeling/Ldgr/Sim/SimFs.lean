import Ldgr.Journal.Dag
import Ldgr.Sim.Config

/-! Simulated storage: sparse byte files with write provenance, durable ranges and crash operators.
The journal records every mutation and every observed read. -/

namespace Ldgr.Sim

open Base Format Action

/-! ## Errors -/

inductive SimFsError where
  | alreadyExists (path : String)
  | notFound (path : String)
  | writeTooLarge (actual max : Nat)
  | readTooLarge (actual max : Nat)
  | fileExtentTooLarge (max : Nat)
  | budgetExhausted (reason : String)
  | unknownWriteTarget
  /-- A crash operator names a path that is not valid UTF-8, rendered with replacements. -/
  | unaddressablePath (path : String)
  | emptyXor
  | bitOutOfRange (bit : UInt8)
  | journal (fault : JournalError)
  deriving DecidableEq

instance : ToString SimFsError where
  toString
    | .alreadyExists path => "file already exists: " ++ path
    | .notFound path => "file not found: " ++ path
    | .writeTooLarge actual max => s!"write of {actual} bytes exceeds the {max} byte limit"
    | .readTooLarge actual max => s!"read of {actual} bytes exceeds the {max} byte limit"
    | .fileExtentTooLarge max => s!"file extent would exceed the {max} byte hard limit"
    | .budgetExhausted reason => "resident budget exhausted: " ++ reason
    | .unknownWriteTarget => "crash operator targets unknown write entry"
    | .unaddressablePath path => "crash operator path is not addressable: " ++ path
    | .emptyXor => "crash operator has an empty XOR payload"
    | .bitOutOfRange bit => s!"crash operator bit {bit} is out of range 0..8"
    | .journal fault => toString fault

/-- The scalar interface reports every failure as a rejected payload with the text of its cause. -/
def SimFsError.intoJournal (fault : SimFsError) : JournalError :=
  .invalidPayload (toString fault)

/-! ## Paths -/

def pathDomain : Bytes :=
  Cbor.textBytes "ldgr.fs.path.v2" ++ [0]

/-- A path that has no canonical form stands for itself. -/
def canonicalPathBytes (path : String) : Bytes :=
  match Path.canonicalize (Cbor.textBytes path) with
  | .ok canonical => canonical
  | .error _ => Cbor.textBytes path

def pathRef (blake3 : Bytes → EntryHash) (path : String) : PathRef :=
  { pathHash := (blake3 (pathDomain ++ canonicalPathBytes path)).digest
    canonicalPath := canonicalPathBytes path }

def canonicalKey (path : String) : String :=
  (String.fromUTF8? ⟨(canonicalPathBytes path).toArray⟩).getD path

/-! ## Files -/

inductive PageState where
  | clean
  | dirty
  | allocated
  deriving DecidableEq

structure ByteRange where
  content : Bytes
  writeId : EntryHash
  state : PageState
  deriving DecidableEq

/-- A range and the offset it starts at. No range reaches beyond the extent limit, which is far below
the largest word, so the saturating sums of the source are plain ones. -/
abbrev Placed := Nat × ByteRange

def Placed.finish (placed : Placed) : Nat :=
  placed.1 + placed.2.content.length

/-- Volatile ranges over a durable snapshot, each by its start offset. -/
structure File where
  cache : SortedMap Nat ByteRange
  durable : SortedMap Nat ByteRange
  /-- Reads at or beyond it return no bytes. -/
  length : Nat
  createdBy : Option EntryHash
  durableExists : Bool
  deriving DecidableEq

namespace File

def default : File :=
  { cache := .empty, durable := .empty, length := 0, createdBy := none, durableExists := false }

variable (file : File)

def persist : File :=
  { file with
    durable := file.cache.mapValues fun range => { range with state := .clean }
    durableExists := true }

def recomputeLength : File :=
  { file with length := (file.cache.entries.map Placed.finish).foldl max 0 }

/-- The durable snapshot, or nothing when the file was never persisted. -/
def dropUnsynced : Option File :=
  if file.durableExists then some ({ file with cache := file.durable }).recomputeLength
  else none

/-! ### Writes -/

/-- The ranges a write to `[start, finish)` cuts into. -/
def affected (start finish : Nat) : List Placed :=
  file.cache.entries.filter fun placed => placed.1 < max finish 1 ∧ start < placed.finish

/-- What the write leaves of one affected range: the bytes before it and the bytes after it. -/
def remains (start finish : Nat) (placed : Placed) : List Placed :=
  (if placed.1 < start then
    [(placed.1, { placed.2 with
      content := placed.2.content.take (start - placed.1), state := .dirty })]
  else []) ++
  if finish < placed.finish ∧ finish - placed.1 < placed.2.content.length then
    [(finish, { placed.2 with content := placed.2.content.drop (finish - placed.1), state := .dirty })]
  else []

def splitAround (start finish : Nat) : SortedMap Nat ByteRange :=
  let affected := file.affected start finish
  let trimmed := affected.foldl (fun cache placed => cache.erase placed.1) file.cache
  (affected.flatMap (remains start finish)).foldl (fun cache placed => cache.insert placed.1 placed.2) trimmed

/-- Only the bytes of the window change. -/
def write (offset : Nat) (content : Bytes) (id : EntryHash) : File :=
  { file with
    length := max file.length (offset + content.length)
    cache := (file.splitAround offset (offset + content.length)).insert offset
      { content, writeId := id, state := .dirty } }

/-! ### Reads -/

/-- The bytes collected so far, the writes they come from and the offset that comes next. -/
structure Reading where
  out : Bytes
  parents : List EntryHash
  cursor : Nat

/-- Fills the hole before a range with zeros, then copies from the range up to `windowEnd`. -/
def Reading.visit (windowEnd : Nat) (reading : Reading) (placed : Placed) : Reading :=
  if placed.finish ≤ reading.cursor then reading
  else
    let hole := List.replicate (placed.1 - reading.cursor) 0
    let cursor := max reading.cursor placed.1
    let copyLen := min placed.finish windowEnd - cursor
    { out := reading.out ++ hole ++ (placed.2.content.drop (cursor - placed.1)).take copyLen
      parents := placed.2.writeId :: reading.parents
      cursor := cursor + copyLen }

def Reading.finish (windowEnd : Nat) (reading : Reading) : Bytes :=
  reading.out ++ List.replicate (windowEnd - reading.cursor) 0

def take (offset requestedLen : Nat) : Nat :=
  min (file.length - offset) requestedLen

def reading (offset requestedLen : Nat) : Reading :=
  let windowEnd := offset + file.take offset requestedLen
  (file.cache.entries.filter (·.1 < max windowEnd (offset + 1))).foldl (Reading.visit windowEnd)
    { out := [], parents := [], cursor := offset }

def observe (offset requestedLen : Nat) : Bytes :=
  (file.reading offset requestedLen).finish (offset + file.take offset requestedLen)

/-- The contributing writes in ascending order, or the creation when there is none. -/
def readParents (offset requestedLen : Nat) : List EntryHash :=
  let parents := (file.reading offset requestedLen).parents.dedup.insertionSort (· ≤ ·)
  if parents.isEmpty then file.createdBy.toList else parents

end File

/-! ## Storage -/

structure SimFs where
  features : Features
  files : SortedMap String File
  maxFileExtent : Nat
  maxResidentBytes : Option Nat
  /-- Pending journaled writes of each path; only with the journaling feature. -/
  journal : SortedMap String (List (Nat × EntryHash))
  /-- Renames that commit on the next barrier; only with the journaling feature. -/
  pendingRenames : SortedMap String String
  journalMode : JournalingMode

namespace SimFs

/-- The hard limit stays the ceiling of the extent. -/
def withBudgets (features : Features) (maxFileExtent : Nat) (maxResidentBytes : Option Nat) : SimFs :=
  { features, files := .empty, maxFileExtent := min maxFileExtent maxFileExtentHard, maxResidentBytes
    journal := .empty, pendingRenames := .empty, journalMode := .data }

def new (features : Features) : SimFs :=
  withBudgets features maxFileExtentHard none

variable (fs : SimFs)

def setJournalingMode (mode : JournalingMode) : SimFs :=
  { fs with journalMode := mode }

def contains (key : String) : Bool :=
  (fs.files.lookup key).isSome

def setFile (key : String) (file : File) : SimFs :=
  { fs with files := fs.files.insert key file }

def rangeOverhead : Nat := 64

def pathOverhead : Nat := 128

/-- What a prospective change would bring the resident total to. -/
def charged (additionalBytes newRanges newPaths : Nat) : Nat :=
  (fs.files.entries.map fun (_, file) =>
      (file.cache.entries.map fun (_, range) => range.content.length).sum).sum + additionalBytes +
    ((fs.files.entries.map fun (_, file) => file.cache.entries.length).sum + newRanges) *
      rangeOverhead +
    (fs.files.entries.length + newPaths) * pathOverhead

def chargeResident (additionalBytes : Nat) (newRange newPath : Bool) : Except SimFsError Unit :=
  match fs.maxResidentBytes with
  | none => .ok ()
  | some budget =>
    if budget < fs.charged additionalBytes newRange.toNat newPath.toNat then
      .error (.budgetExhausted "resident byte budget")
    else .ok ()

/-! ## Operations

A journal that refuses an entry leaves the files as they were. -/

section Operations

variable (blake3 : Bytes → EntryHash)

def journaled (kind : EntryKind) (actor : ActorId) (parents : List EntryHash)
    (payload : EntryPayload) : Action (Journal × SimFs) SimFsError EntryHash :=
  ((Journal.append blake3 false kind actor parents payload).zoom Prod.fst
    fun state journal => (journal, state.2)).mapError .journal

def update (change : SimFs → SimFs) : Action (Journal × SimFs) SimFsError Unit :=
  modify fun (journal, fs) => (journal, change fs)

def checkWrite (path : String) (offset : UInt64) (content : Bytes) : Except SimFsError Unit := do
  if maxWriteBytes < content.length then
    throw (.writeTooLarge content.length maxWriteBytes)
  else if 2 ^ 64 ≤ offset.toNat + content.length ∨ fs.maxFileExtent < offset.toNat + content.length then
    throw (.fileExtentTooLarge fs.maxFileExtent)
  else
    let created := !fs.contains (canonicalKey path)
    fs.chargeResident content.length (created || 0 < content.length) created

def noteJournaled (key : String) (offset : Nat) (id : EntryHash) : SimFs :=
  if fs.features.fsJournaling then
    { fs with journal := fs.journal.insert key ((fs.journal.lookup key).getD [] ++ [(offset, id)]) }
  else fs

/-- The file a write changes: an absent one is created by the write. -/
def fileFor (key : String) (id : EntryHash) : File :=
  (fs.files.lookup key).getD { File.default with createdBy := some id }

def applyWrite (path : String) (offset : Nat) (content : Bytes) (id : EntryHash) : SimFs :=
  let key := canonicalKey path
  (fs.setFile key ((fs.fileFor key id).write offset content id)).noteJournaled key offset id

/-- A write of no bytes is journaled and changes nothing. -/
def writeBytes (actor : ActorId) (path : String) (offset : UInt64) (content : Bytes) :
    Action (Journal × SimFs) SimFsError EntryHash := do
  let (_, fs) ← get
  ofExcept (fs.checkWrite path offset content)
  let id ← journaled blake3 .fsWrite actor [] (.fsWrite (.write (pathRef blake3 path) offset content))
  if content.isEmpty then pure id
  else
    update (·.applyWrite path offset.toNat content id)
    pure id

def allocate (actor : ActorId) (path : String) : Action (Journal × SimFs) SimFsError EntryHash := do
  let (_, fs) ← get
  if fs.contains (canonicalKey path) then fail (.alreadyExists path)
  else
    ofExcept (fs.chargeResident 0 true true)
    let id ← journaled blake3 .fsWrite actor [] (.fsWrite (.allocate (pathRef blake3 path)))
    update (·.setFile (canonicalKey path) { File.default with createdBy := some id })
    pure id

def readBytes (actor : ActorId) (path : String) (offset requestedLen : UInt64) :
    Action (Journal × SimFs) SimFsError ObservedRead := do
  if maxReadBytes < requestedLen.toNat then
    fail (.readTooLarge requestedLen.toNat maxReadBytes)
  else
    let (_, fs) ← get
    let (observed, parents) := match fs.files.lookup (canonicalKey path) with
      | none => (ObservedRead.missing, [])
      | some file =>
        (.present (file.observe offset.toNat requestedLen.toNat),
          file.readParents offset.toNat requestedLen.toNat)
    let _ ← journaled blake3 .fsRead actor parents
      (.fsRead { pathRef := pathRef blake3 path, offset, requestedLen, observed })
    pure observed

/-- Marks the pending ranges clean that still hold their write. -/
def settle (file : File) (ranges : List (Nat × EntryHash)) : File :=
  ranges.foldl (fun file (offset, id) =>
    match file.cache.lookup offset with
    | some range =>
      if range.writeId = id then
        { file with cache := file.cache.insert offset { range with state := .clean } }
      else file
    | none => file) file

def renameFile (source target : String) : SimFs :=
  match fs.files.lookup source with
  | some file => { fs with files := (fs.files.erase source).insert target file }
  | none => fs

/-- The journaling part of the barrier: pending writes settle, then pending renames commit. -/
def commitJournal : SimFs :=
  if fs.features.fsJournaling then
    let settled := fs.journal.entries.foldl (fun fs (path, ranges) =>
      match fs.files.lookup path with
      | some file => fs.setFile path (settle file ranges)
      | none => fs) fs
    fs.pendingRenames.entries.foldl (fun fs (source, target) => fs.renameFile source target)
      { settled with journal := .empty, pendingRenames := .empty }
  else fs

def persistAll : SimFs :=
  { fs with files := fs.files.mapValues File.persist }

def fsync (actor : ActorId) : Action (Journal × SimFs) SimFsError EntryHash := do
  let id ← journaled blake3 .fsFsync actor [] (.fsFsync (pathRef blake3 "/"))
  update fun fs => fs.commitJournal.persistAll
  pure id

def fsyncPath (actor : ActorId) (path : String) : Action (Journal × SimFs) SimFsError EntryHash := do
  let (_, fs) ← get
  match fs.files.lookup (canonicalKey path) with
  | none => fail (.notFound path)
  | some file =>
    let id ← journaled blake3 .fsFsync actor [] (.fsFsync (pathRef blake3 path))
    update (·.setFile (canonicalKey path) file.persist)
    pure id

/-- A rename changes the volatile names only, until the journaling feature commits it. -/
def rename (actor : ActorId) (source target : String) : Action (Journal × SimFs) SimFsError EntryHash := do
  let (_, fs) ← get
  if !fs.contains (canonicalKey source) then fail (.notFound source)
  else
    let id ← journaled blake3 .fsWrite actor []
      (.fsWrite (.rename (pathRef blake3 source) (pathRef blake3 target)))
    if canonicalKey source = canonicalKey target then pure id
    else
      update fun fs =>
        let renamed := fs.renameFile (canonicalKey source) (canonicalKey target)
        if fs.features.fsJournaling then
          { renamed with
            pendingRenames := renamed.pendingRenames.insert (canonicalKey source) (canonicalKey target) }
        else renamed
      pure id

end Operations

/-! ## Crashes -/

/-- The first range that holds bytes of `writeEntry`, with its file. -/
def targetRange (writeEntry : EntryHash) : Option (String × File × Placed) :=
  fs.files.entries.findSome? fun (key, file) =>
    (file.cache.entries.find? (·.2.writeId = writeEntry)).map fun placed => (key, file, placed)

def dropAllUnsynced : SimFs :=
  { fs with files := fs.files.filterMapValues File.dropUnsynced }

/-- The keys of the named paths; a path named twice fails. -/
def dropKeys (fromUtf8Lossy : Bytes → String) (seen : List String) :
    List PathRef → Except SimFsError (List String)
  | [] => .ok seen.reverse
  | path :: paths =>
    match String.fromUTF8? ⟨path.canonicalPath.toArray⟩ with
    | none => .error (.unaddressablePath (fromUtf8Lossy path.canonicalPath))
    | some key =>
      if key ∈ seen then .error (.alreadyExists key)
      else dropKeys fromUtf8Lossy (key :: seen) paths

def dropPath (key : String) : SimFs :=
  match fs.files.lookup key with
  | none => fs
  | some file =>
    match file.dropUnsynced with
    | some kept => fs.setFile key kept
    | none => { fs with files := fs.files.erase key }

def setRange (key : String) (file : File) (start : Nat) (range : ByteRange) : SimFs :=
  fs.setFile key { file with cache := file.cache.insert start range }

/-- Every refused operator leaves the storage unchanged. -/
def applyCrashOperation (fromUtf8Lossy : Bytes → String) (fs : SimFs) : CrashOperation → Except SimFsError SimFs
  | .dropAllUnsynced => .ok fs.dropAllUnsynced
  | .dropPaths paths => do
      let keys ← dropKeys fromUtf8Lossy [] paths
      pure (keys.foldl dropPath fs)
  | .tornWrite writeEntry persistedPrefix =>
    match fs.targetRange writeEntry with
    | none => .error .unknownWriteTarget
    | some (key, file, start, range) =>
      if range.content.length < persistedPrefix.toNat then .error .unknownWriteTarget
      else
        let torn := { range with
          content := range.content.take persistedPrefix.toNat, state := .dirty }
        .ok (fs.setFile key ({ file with cache := file.cache.insert start torn }).recomputeLength)
  | .corruptRange writeEntry offset xorBytes =>
    if xorBytes.isEmpty then .error .emptyXor
    else
      match fs.targetRange writeEntry with
      | none => .error .unknownWriteTarget
      | some (key, file, start, range) =>
        if range.content.length ≤ offset.toNat then .error .unknownWriteTarget
        else
          let window := range.content.drop offset.toNat
          let corrupted := window.zipWith (· ^^^ ·) xorBytes ++ window.drop xorBytes.length
          .ok (fs.setRange key file start
            { range with content := range.content.take offset.toNat ++ corrupted })
  | .bitFlip writeEntry offset bit =>
    if 7 < bit then .error (.bitOutOfRange bit)
    else
      match fs.targetRange writeEntry with
      | none => .error .unknownWriteTarget
      | some (key, file, start, range) =>
        if range.content.length ≤ offset.toNat then .error .unknownWriteTarget
        else
          .ok (fs.setRange key file start
            { range with content := range.content.modify offset.toNat (· ^^^ (1 <<< bit)) })

/-- The operator that drops all unsynced state cannot fail. -/
def crash : SimFs :=
  fs.dropAllUnsynced

/-- In writeback mode the data of pending writes survives the crash. -/
def crashJournaled : SimFs :=
  let kept :=
    if fs.journalMode = .writeback then
      fs.journal.entries.foldl (fun fs (path, ranges) =>
        match fs.files.lookup path with
        | some file => fs.setFile path (settle file ranges).persist
        | none => fs) fs
    else fs
  ({ kept with journal := .empty, pendingRenames := .empty }).dropAllUnsynced

/-! ## Scalars -/

section Scalars

variable (blake3 : Bytes → EntryHash)

def write (actor : ActorId) (path : String) (value : UInt64) :
    Action (Journal × SimFs) JournalError EntryHash :=
  (writeBytes blake3 actor path 0 (leBytes 8 value.toNat)).mapError SimFsError.intoJournal

/-- Up to eight bytes from the start of the file, little-endian. -/
def read (actor : ActorId) (path : String) : Action (Journal × SimFs) JournalError (Option UInt64) := do
  let observed ← (readBytes blake3 actor path 0 8).mapError SimFsError.intoJournal
  pure (match observed with
    | .missing => none
    | .present content => some (UInt64.ofNat (leNat (content.take 8))))

end Scalars

end SimFs

end Ldgr.Sim
