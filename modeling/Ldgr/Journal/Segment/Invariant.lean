import Ldgr.Journal.Segment.RecoveryProperties

/-! What a store and its directory keep between operations: every block in its place, and in the log
what the open writer holds. -/

namespace Ldgr

open Base Format Action List

namespace SegmentStore

variable {store : SegmentStore} {host : Host} {files : Files FileName} {blocks : List Block}
  {records : List ArchiveRecord} {tail : List Entry}

theorem unsealed_append (blocks : List Block) (entries others : List Entry) :
    unsealed blocks (entries ++ others) = unsealed blocks entries ++ unsealed blocks others :=
  filter_append ..

/-- Entries the log brings back beyond the writer's are those some block holds already. -/
def Logs (store : SegmentStore) (blocks : List Block) (entries : List Entry) : Prop :=
  (∃ pending content, store.wal = some pending ∧ store.dir.files.lookup .wal = some content ∧
    content ++ pending = walPrefix ++ entries.flatMap Entry.frame) ∨
  (store.wal = none ∧ unsealed blocks entries = [] ∧ ∃ after, Log (store.dir.files.lookup .wal) entries after)

structure Keeps (host : Host) (blocks : List Block) (records : List ArchiveRecord)
    (tail : List Entry) (store : SegmentStore) : Prop where
  reliable : store.dir = .ofFiles store.dir.files
  layout : Layout host store.dir.files blocks records
  valid : ∀ block ∈ blocks, block.Valid host
  describes : Describes host blocks store.sealed
  archived : store.archived = (SortedMap.ofList records).entries
  below : ∀ block ∈ blocks, block.id < store.nextSegmentId
  written : store.writer = .holding tail
  readable : ∀ entry ∈ tail, entry.Readable host.blake3
  logs : ∃ entries, (∀ entry ∈ entries, entry.Readable host.blake3) ∧
    unsealed blocks entries = unsealed blocks tail ∧ Logs store blocks entries
  idle : store.wal = none → tail = []

theorem Keeps.entries (keeps : Keeps host blocks records tail store) (lawful : host.Lawful) :
    entriesInAppendOrder host store = (.ok (blocks.flatMap Block.entries ++ tail), store) := by
  refine Serves.entries ⟨lawful, keeps.reliable, keeps.describes, keeps.valid, fun block member => ?_⟩
    keeps.written keeps.readable
  rw [keeps.archived]
  exact keeps.layout.finds member

theorem Keeps.withFiles (keeps : Keeps host blocks records tail store)
    (archive : files.lookup .archive = store.dir.files.lookup .archive)
    (segments : ∀ id, files.lookup (.segment id) = store.dir.files.lookup (.segment id))
    (wal : files.lookup .wal = store.dir.files.lookup .wal) :
    Keeps host blocks records tail { store with dir := .ofFiles files } where
  reliable := rfl
  layout := keeps.layout.congr archive segments
  valid := keeps.valid
  describes := keeps.describes
  archived := keeps.archived
  below := keeps.below
  written := keeps.written
  readable := keeps.readable
  logs := by
    obtain ⟨entries, each, agrees, logs⟩ := keeps.logs
    refine ⟨entries, each, agrees, ?_⟩
    unfold Logs at logs ⊢
    rwa [← wal] at logs
  idle := keeps.idle

theorem Log.whole (entries : List Entry) : Log (some (walPrefix ++ entries.flatMap Entry.frame)) entries
      (some (walPrefix ++ entries.flatMap Entry.frame)) := by
  have log : Log (some (walPrefix ++ (entries.flatMap Entry.frame ++ []))) entries _ :=
    .frames incompleteFrame_nil
  rwa [append_nil] at log

variable {entries : List Entry}

theorem Log.again {before after : Option Bytes} (log : Log before entries after) : Log after entries after := by
  cases log with
  | absent => exact .absent
  | empty => exact .empty
  | frames _ => exact .whole entries

/-! ## The log -/

/-- Nothing but the open writer and the log has changed. -/
structure SameSealed (store after : SegmentStore) : Prop where
  sealed : after.sealed = store.sealed
  archived : after.archived = store.archived
  retention : after.retention = store.retention
  next : after.nextSegmentId = store.nextSegmentId
  files : ∀ name, name ≠ .wal → after.dir.files.lookup name = store.dir.files.lookup name

theorem SameSealed.trans {store between after : SegmentStore} (first : SameSealed store between)
    (second : SameSealed between after) : SameSealed store after where
  sealed := second.sealed.trans first.sealed
  archived := second.archived.trans first.archived
  retention := second.retention.trans first.retention
  next := second.next.trans first.next
  files name other := (second.files name other).trans (first.files name other)

theorem Keeps.of_same (keeps : Keeps host blocks records tail store) {after : SegmentStore}
    (same : SameSealed store after) {others : List Entry}
    (reliable : after.dir = .ofFiles after.dir.files) (written : after.writer = .holding others)
    (readable : ∀ entry ∈ others, entry.Readable host.blake3)
    (each : ∀ entry ∈ entries, entry.Readable host.blake3)
    (agrees : unsealed blocks entries = unsealed blocks others) (logs : Logs after blocks entries)
    (idle : after.wal = none → others = []) : Keeps host blocks records others after where
  reliable
  layout := keeps.layout.congr (same.files _ (by simp)) fun id => same.files _ (by simp)
  valid := keeps.valid
  describes := same.sealed ▸ keeps.describes
  archived := same.archived.trans keeps.archived
  below := same.next ▸ keeps.below
  written
  readable
  logs := ⟨entries, each, agrees, logs⟩
  idle

section Log

variable {pending content : Bytes} (reliable : store.dir = .ofFiles files)
  (opened : store.wal = some pending) (present : files.lookup .wal = some content)

include reliable present

theorem flushWal_eq (pending : Bytes) :
    ∃ after, flushWal pending store = (.ok (), { store with
        dir := .ofFiles after, wal := if pending.isEmpty then store.wal else some [] }) ∧
      after.lookup .wal = some (content ++ pending) ∧ LogOnly files after := by
  cases pending with
  | nil =>
    refine ⟨files, ?_, by rw [append_nil, present], fun _ _ => rfl⟩
    rw [← reliable]
    rfl
  | cons byte rest =>
    have ran : Directory.append .wal (byte :: rest) store.dir = _ :=
      reliable ▸ Directory.append_ofFiles present (byte :: rest)
    exact ⟨_, bind_of_ok (disk_of_ok ran), AList.lookup_insert _,
      fun name other => AList.lookup_insert_ne other⟩

include opened

theorem dropWal_eq :
    ∃ after, dropWal store = (.ok (), { store with dir := .ofFiles after, wal := none }) ∧
      after.lookup .wal = some (content ++ pending) ∧ LogOnly files after := by
  obtain ⟨after, flushed, logged, others⟩ := flushWal_eq reliable present pending
  refine ⟨after, ?_, logged, others⟩
  have ignored : ignore (flushWal pending) store = (.ok (), _) :=
    congrArg (fun result => (Except.ok (), result.2)) flushed
  rw [dropWal, get_bind, opened]
  exact bind_of_ok ignored

theorem makeRoom_eq (bytes : Bytes) :
    ∃ after rest written, makeRoom pending bytes store =
        (.ok (), { store with dir := .ofFiles after, wal := some rest }) ∧
      after.lookup .wal = some written ∧ written ++ rest = content ++ pending ∧
      (walBufferCapacity ≤ bytes.length → rest = []) ∧ LogOnly files after := by
  unfold makeRoom
  split_ifs with full
  · obtain ⟨after, flushed, logged, others⟩ := flushWal_eq reliable present pending
    refine ⟨after, [], content ++ pending, ?_, logged, append_nil _, fun _ => rfl, others⟩
    cases pending with
    | nil => rw [flushed, opened]; rfl
    | cons byte rest => exact flushed
  · refine ⟨files, pending, content, ?_, present, rfl, fun large => ?_, fun _ _ => rfl⟩
    · rw [← reliable, ← opened]
      rfl
    · rw [walBufferCapacity] at full large
      refine length_eq_zero_iff.mp ?_
      omega

theorem writeWal_eq (bytes : Bytes) :
    ∃ after rest written, writeWal bytes store =
        (.ok (), { store with dir := .ofFiles after, wal := some rest }) ∧
      after.lookup .wal = some written ∧ written ++ rest = content ++ pending ++ bytes ∧ LogOnly files after := by
  rw [writeWal, get_bind, opened]
  dsimp only
  by_cases held : bytes.length < walBufferCapacity - pending.length
  · refine ⟨files, pending ++ bytes, content, ?_, present, by rw [append_assoc], fun _ _ => rfl⟩
    rw [if_pos held, ← reliable]
    rfl
  · obtain ⟨after, rest, written, ran, logged, same, emptied, others⟩ :=
      makeRoom_eq reliable opened present bytes
    rw [if_neg held, bind_of_ok ran]
    by_cases large : walBufferCapacity ≤ bytes.length
    · have appended : Directory.append .wal bytes (Directory.ofFiles after) = _ :=
        Directory.append_ofFiles logged bytes
      cases emptied large
      rw [if_pos large]
      refine ⟨_, [], written ++ bytes, disk_of_ok appended, AList.lookup_insert _, ?_,
        fun name other => (AList.lookup_insert_ne other).trans (others name other)⟩
      rw [← same, append_nil, append_nil]
    · rw [if_neg large]
      exact ⟨after, rest ++ bytes, written, rfl, logged, by rw [← same, append_assoc], others⟩

end Log

theorem ensureWal_keeps (keeps : Keeps host blocks records tail store) :
    ∃ after, ensureWal store = (.ok (), after) ∧ Keeps host blocks records tail after ∧
      SameSealed store after ∧ after.writer = store.writer ∧ after.wal.isSome := by
  rw [ensureWal, get_bind]
  cases opened : store.wal with
  | some pending =>
    exact ⟨store, rfl, keeps, ⟨rfl, rfl, rfl, rfl, fun _ _ => rfl⟩, rfl, by rw [opened]; rfl⟩
  | none =>
    have created : Directory.create .wal store.dir = (.ok (), .ofFiles (store.dir.files.insert .wal [])) := by
      rw [keeps.reliable]
      rfl
    have written := Directory.append_ofFiles (AList.lookup_insert (a := FileName.wal) (b := [])
      store.dir.files) walPrefix
    rw [nil_append] at written
    let after : SegmentStore := { store with
      dir := .ofFiles ((store.dir.files.insert FileName.wal []).insert FileName.wal walPrefix)
      wal := some [] }
    have ran : (do
        disk (Directory.create .wal)
        disk (Directory.append .wal walPrefix)
        Action.modify fun store => { store with wal := some [] }) store = (.ok (), after) :=
      (bind_of_ok (disk_of_ok created)).trans (bind_of_ok (disk_of_ok written))
    have same : SameSealed store after := by
      refine ⟨rfl, rfl, rfl, rfl, fun name other => ?_⟩
      exact (AList.lookup_insert_ne other).trans (AList.lookup_insert_ne other)
    cases keeps.idle opened
    refine ⟨after, ran, keeps.of_same same rfl keeps.written keeps.readable (forall_mem_nil _)
      rfl (.inl ⟨[], walPrefix, rfl, AList.lookup_insert _, rfl⟩) nofun, same, rfl, rfl⟩

theorem writeWal_keeps (keeps : Keeps host blocks records tail store) (opened : store.wal.isSome) (readable : ∀ entry ∈ entries, entry.Readable host.blake3) :
    ∃ after, writeWal (entries.flatMap Entry.frame)
        { store with writer := .holding (tail ++ entries) } = (.ok (), after) ∧
      Keeps host blocks records (tail ++ entries) after ∧ SameSealed store after := by
  obtain ⟨pending, opened⟩ := Option.isSome_iff_exists.mp opened
  obtain ⟨logged, each, agrees, ⟨_, content, same, present, whole⟩ | ⟨closed, _⟩⟩ := keeps.logs
  · cases opened.symm.trans same
    have reliable : { store with writer := .holding (tail ++ entries) }.dir =
        .ofFiles store.dir.files := keeps.reliable
    obtain ⟨after, rest, written, ran, found, form, others⟩ := writeWal_eq reliable opened present
      (entries.flatMap Entry.frame)
    have both : ∀ entry ∈ tail ++ entries, entry.Readable host.blake3 := fun entry member =>
      (mem_append.mp member).elim (keeps.readable entry) (readable entry)
    have all : ∀ entry ∈ logged ++ entries, entry.Readable host.blake3 := fun entry member =>
      (mem_append.mp member).elim (each entry) (readable entry)
    have untouched : SameSealed store { store with
        writer := .holding (tail ++ entries), dir := .ofFiles after, wal := some rest } :=
      ⟨rfl, rfl, rfl, rfl, others⟩
    refine ⟨_, ran, keeps.of_same untouched rfl rfl both all ?_ (.inl ⟨rest, written, rfl, found, ?_⟩)
      nofun, untouched⟩
    · rw [unsealed_append, unsealed_append, agrees]
    · rw [form, whole, flatMap_append, append_assoc]
  · rw [opened] at closed
    cases closed

theorem Keeps.close (keeps : Keeps host blocks records tail store) :
    ∃ files entries after, store.close = .ofFiles files ∧
      (∀ name, name ≠ .wal → files.lookup name = store.dir.files.lookup name) ∧
      (∀ entry ∈ entries, entry.Readable host.blake3) ∧
      unsealed blocks entries = unsealed blocks tail ∧ Log (files.lookup .wal) entries after := by
  obtain ⟨entries, readable, agrees, ⟨pending, content, opened, present, whole⟩ | ⟨closed, _, log⟩⟩ :=
    keeps.logs
  · obtain ⟨files, dropped, logged, others⟩ := dropWal_eq keeps.reliable opened present
    refine ⟨files, entries, some (walPrefix ++ entries.flatMap Entry.frame),
      congrArg (fun result => result.2.dir) dropped, others, readable, agrees, ?_⟩
    rw [logged, whole]
    exact .whole entries
  · obtain ⟨after, log⟩ := log
    refine ⟨store.dir.files, entries, after, ?_, fun _ _ => rfl, readable, agrees, log⟩
    rw [SegmentStore.close, dropWal, get_bind, closed]
    exact keeps.reliable

/-- Nothing but the log has changed, and no call has started to fail. -/
structure Logging (store after : SegmentStore) : Prop extends SameSealed store after where
  writer : after.writer = store.writer
  reliable : store.dir = .ofFiles store.dir.files → after.dir = .ofFiles after.dir.files

instance : Std.Refl Logging where
  refl _ := ⟨⟨rfl, rfl, rfl, rfl, fun _ _ => rfl⟩, rfl, id⟩

instance : IsTrans SegmentStore Logging where
  trans _ _ _ first second := ⟨first.toSameSealed.trans second.toSameSealed,
    second.writer.trans first.writer, second.reliable ∘ first.reliable⟩

theorem disk_logging {α : Type} {action : Action Disk IoError α}
    (only : action.Relates (Directory.Only .wal)) : (disk action).Relates Logging :=
  only.mapError.zoom fun _ _ touched =>
    ⟨⟨rfl, rfl, rfl, rfl, fun _ apart => touched.others _ apart⟩, rfl, touched.faultless⟩

theorem withWal_logging (change : SegmentStore → Option Bytes) :
    (Action.modify fun store => { store with wal := change store } :
      Action SegmentStore JournalError Unit).Relates Logging :=
  fun _ => ⟨⟨rfl, rfl, rfl, rfl, fun _ _ => rfl⟩, rfl, id⟩

theorem ensureWal_logging : ensureWal.Relates Logging := by
  refine Action.Relates.bind relates_get fun current => ?_
  split_ifs
  · exact (disk_logging (Directory.create_only _)).bind fun _ =>
      (disk_logging (Directory.append_only _ _)).bind fun _ => withWal_logging _
  · exact relates_pure _

theorem flushWal_logging (pending : Bytes) : (flushWal pending).Relates Logging := by
  unfold flushWal
  split_ifs
  · exact relates_pure _
  · exact (disk_logging (Directory.append_only _ _)).bind fun _ => withWal_logging _

theorem makeRoom_logging (pending bytes : Bytes) : (makeRoom pending bytes).Relates Logging := by
  unfold makeRoom
  split_ifs
  · exact flushWal_logging _
  · exact relates_pure _

theorem writeWal_logging (bytes : Bytes) : (writeWal bytes).Relates Logging := by
  refine Action.Relates.bind relates_get fun current => ?_
  cases current.wal with
  | none => exact relates_pure _
  | some pending =>
    dsimp only
    split_ifs
    · exact withWal_logging _
    · exact (makeRoom_logging _ _).bind fun _ => disk_logging (Directory.append_only _ _)
    · exact (makeRoom_logging _ _).bind fun _ => withWal_logging _

theorem dropWal_logging : dropWal.Relates Logging := by
  refine Action.Relates.bind relates_get fun current => ?_
  cases current.wal with
  | none => exact relates_pure _
  | some pending =>
    exact Action.Relates.bind (fun state => flushWal_logging pending state) fun _ =>
      withWal_logging _

theorem dropWal_ok (store : SegmentStore) : ∃ after, dropWal store = (.ok (), after) ∧ after.wal = none := by
  rw [dropWal, get_bind]
  cases wal : store.wal with
  | none => exact ⟨store, rfl, wal⟩
  | some pending => exact ⟨_, rfl, rfl⟩

/-! ## Sealing -/

/-- The files, the log apart, once the open block has its place among them. -/
def Renamed (host : Host) (store : SegmentStore) (files : Files FileName) : Prop :=
  ∀ name, name ≠ .wal → files.lookup name =
    if name = .segment store.nextSegmentId then some (store.writer.sealedBytes host)
    else if name = .segmentTmp store.nextSegmentId then none else store.dir.files.lookup name

theorem Renamed.segment (renamed : Renamed host store files) (id : UInt64) : files.lookup (.segment id) =
    if id = store.nextSegmentId then some (store.writer.sealedBytes host)
    else store.dir.files.lookup (.segment id) :=
  (renamed _ (by simp)).trans (if_congr (by simp) rfl (if_neg (by simp)))

/-- The store with its open block sealed, before anything is retained. -/
structure Seals (host : Host) (store after : SegmentStore) : Prop where
  reliable : after.dir = .ofFiles after.dir.files
  writer : after.writer = .new
  wal : after.wal = none
  sealed : after.sealed = store.sealed ++ [store.writer.metadata host store.nextSegmentId]
  archived : after.archived = store.archived
  retention : after.retention = store.retention
  next : after.nextSegmentId = store.nextSegmentId + 1
  renamed : Renamed host store after.dir.files
  removed : after.dir.files.lookup .wal = none

theorem sealWriter_seals (reliable : store.dir = .ofFiles store.dir.files)
    (nonempty : ¬store.writer.isEmpty = true) :
    ∃ after, sealWriter host store = (if store.retention ≠ .hot then retain host else pure ()) after ∧
      Seals host store after := by
  obtain ⟨renamed, replaced, lookups⟩ := Directory.replace_ofFiles store.dir.files
    (.segmentTmp store.nextSegmentId) (.segment store.nextSegmentId) (store.writer.sealedBytes host)
  have written : store.writer.sealSegment host store.nextSegmentId store.dir =
      (.ok (store.writer.metadata host store.nextSegmentId), .ofFiles renamed) := by
    rw [reliable]
    exact bind_of_ok (mapError_eq_ok.mpr replaced)
  let sealing : SegmentStore := { store with writer := .new }
  have sealed : onDir (store.writer.sealSegment host store.nextSegmentId) sealing = _ :=
    onDir_of written
  let listed : SegmentStore := { sealing with
    dir := .ofFiles renamed
    nextSegmentId := store.nextSegmentId + 1
    sealed := store.sealed ++ [store.writer.metadata host store.nextSegmentId] }
  obtain ⟨dropped, drops, closed⟩ := dropWal_ok listed
  have first := dropWal_logging listed
  rw [drops] at first
  obtain ⟨removed, gone, without⟩ := Directory.removeIfPresent_ofFiles dropped.dir.files .wal
  rw [← first.reliable rfl] at gone
  refine ⟨{ dropped with dir := .ofFiles removed }, ?_, rfl, first.writer, closed, first.sealed,
    first.archived, first.retention, first.next, fun name other => ?_, (without _).trans (if_pos rfl)⟩
  · rw [sealWriter, get_bind, if_neg nonempty, modify_bind]
    exact (bind_of_ok sealed).trans ((bind_of_ok drops).trans (bind_of_ok (disk_of_ok gone)))
  · exact (without name).trans ((if_neg other).trans ((first.files name other).trans (lookups name)))

theorem isEmpty_holding {blake3 : Bytes → EntryHash} (readable : ∀ entry ∈ entries, entry.Readable blake3) :
    (SegmentWriter.holding entries).isEmpty = entries.isEmpty := by
  cases entries with
  | nil => rfl
  | cons entry entries =>
    have frames := length_le_length_frames readable
    rw [length_cons] at frames
    have buffered : (SegmentWriter.holding (entry :: entries)).buffer ≠ [] :=
      ne_nil_of_length_pos (Nat.lt_of_lt_of_le (by omega) frames)
    exact isEmpty_eq_false_iff.mpr buffered

theorem Keeps.renamed (keeps : Keeps host blocks records tail store) (renamed : Renamed host store files) :
    Layout host files (blocks ++ [⟨store.nextSegmentId, tail⟩]) records := by
  refine keeps.layout.snoc keeps.below (renamed .archive (by simp)) fun id => ?_
  rw [renamed.segment, keeps.written]
  rfl

theorem Keeps.validSealed (keeps : Keeps host blocks records tail store) (fits : host.Fits store.writer.buffer) :
    ∀ block ∈ blocks ++ [⟨store.nextSegmentId, tail⟩], block.Valid host :=
  forall_mem_append.mpr ⟨keeps.valid, forall_mem_singleton.mpr
    ⟨keeps.readable, show host.Fits (SegmentWriter.holding tail).buffer by rwa [← keeps.written]⟩⟩

theorem sealWriter_keeps (keeps : Keeps host blocks records tail store) (nonempty : tail ≠ [])
    (fits : host.Fits store.writer.buffer) (room : store.nextSegmentId.toNat + 1 < 2 ^ 64) :
    ∃ after, sealWriter host store = (if store.retention ≠ .hot then retain host else pure ()) after ∧
      Keeps host (blocks ++ [⟨store.nextSegmentId, tail⟩]) records [] after ∧
      after.retention = store.retention ∧ after.nextSegmentId = store.nextSegmentId + 1 ∧
      after.sealed = store.sealed ++ [store.writer.metadata host store.nextSegmentId] ∧
      after.dir.files.lookup .manifest = store.dir.files.lookup .manifest := by
  have buffered : ¬store.writer.isEmpty = true := by
    rw [keeps.written, isEmpty_holding keeps.readable, List.isEmpty_iff]
    exact nonempty
  obtain ⟨after, ran, seals⟩ := @sealWriter_seals store host keeps.reliable buffered
  have next := Base.lt_add_one room
  refine ⟨after, ran, ?_, seals.retention, seals.next, seals.sealed, seals.renamed .manifest (by simp)⟩
  exact
    { reliable := seals.reliable
      layout := keeps.renamed seals.renamed
      valid := keeps.validSealed fits
      describes := by
        rw [seals.sealed]
        exact rel_append keeps.describes (forall₂_cons.mpr ⟨by rw [keeps.written]; rfl, .nil⟩)
      archived := seals.archived.trans keeps.archived
      below := seals.next ▸ forall_mem_append.mpr ⟨fun earlier member => (keeps.below earlier member).trans next,
          forall_mem_singleton.mpr next⟩
      written := seals.writer
      readable := forall_mem_nil _
      logs := ⟨[], forall_mem_nil _, rfl, .inr ⟨seals.wal, rfl, none, seals.removed ▸ .absent⟩⟩
      idle := fun _ => rfl }

end SegmentStore

end Ldgr
