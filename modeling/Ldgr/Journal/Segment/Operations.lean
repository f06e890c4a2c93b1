import Ldgr.Journal.Segment.Invariant
import Ldgr.Journal.Segment.RetentionPass

/-! The operations on an open store, and the blocks and entries each of them leaves. -/

namespace Ldgr

open Base Format Action List SegmentWriter Entry

/-- The id of a block with the bytes of its file. -/
def Block.part (host : Host) (block : Block) : ArchiveRecord :=
  (block.id, block.file host)

namespace SegmentStore

variable {store : SegmentStore} {host : Host} {blocks : List Block} {records : List ArchiveRecord}
  {tail : List Entry}

theorem map_fst_parts (host : Host) (blocks : List Block) :
    (blocks.map (Block.part host)).map Prod.fst = blocks.map Block.id := by
  rw [List.map_map]
  rfl

theorem Keeps.intact (keeps : Keeps host blocks records tail store) :
    Intact host (blocks.map (Block.part host)) records store where
  reliable := keeps.reliable
  ascending := List.pairwise_map.mpr keeps.layout.ascending
  listed := keeps.describes.ids.trans (map_fst_parts host blocks).symm
  below := List.forall_mem_map.mpr keeps.below
  short := List.forall_mem_map.mpr fun block member => (keeps.valid block member).length_file_lt
  archive := keeps.layout.archive
  known record member := by
    obtain ⟨block, listed, rfl⟩ := keeps.layout.archived record member
    exact List.mem_map_of_mem listed
  archived := keeps.archived
  loose := List.forall_mem_map.mpr keeps.layout.loose

theorem Keeps.few (keeps : Keeps host blocks records tail store) : store.sealed.length < 2 ^ 64 :=
  keeps.intact.few

theorem Retained.layout {after : SegmentStore}
    (retained : Retained host (blocks.map (Block.part host)) records store after)
    (known : ∀ id, (store.dir.files.lookup (.segment id)).isSome → id ∈ blocks.map Block.id) :
    Layout host after.dir.files blocks records where
  ascending := by
    have ordered := List.pairwise_map.mp retained.ascending
    exact ordered
  archive := retained.archive
  archived record member := by
    obtain ⟨block, listed, same⟩ := List.mem_map.mp (retained.known record member)
    exact ⟨block, listed, same.symm⟩
  loose := List.forall_mem_map.mp retained.loose
  known id present := by
    have found := retained.existed id present
    rw [map_fst_parts] at found
    exact found.elim (fun listed => listed) (known id)

theorem retain_keeps (keeps : Keeps host blocks records tail store) :
    ∃ after updated, retain host store = (.ok (), after) ∧ Keeps host blocks updated tail after ∧
      after.sealed = store.sealed ∧ after.retention = store.retention ∧
      after.nextSegmentId = store.nextSegmentId ∧
      manifestIn after.dir.files = .ok (store.retention, store.sealed.map SealedSegment.manifestEntry) ∧
      ∀ segment ∈ store.sealed, store.shouldKeepLoose segment store.newestTailStart = true →
        (after.dir.files.lookup (.segment segment.id)).isSome := by
  obtain ⟨after, updated, ran, retained⟩ := retain_intact keeps.intact
  have frame := retained.frame
  have sealed : after.sealed = store.sealed := by rw [frame]
  have retention : after.retention = store.retention := by rw [frame]
  have next : after.nextSegmentId = store.nextSegmentId := by rw [frame]
  have writer : after.writer = store.writer := by rw [frame]
  have wal : after.wal = store.wal := by rw [frame]
  refine ⟨after, updated, ran, ?_, sealed, retention, next, ?_, fun segment member wanted => ?_⟩
  · exact
      { reliable := retained.reliable
        layout := retained.layout keeps.layout.known
        valid := keeps.valid
        describes := sealed ▸ keeps.describes
        archived := retained.archived
        below := next ▸ keeps.below
        written := writer.trans keeps.written
        readable := keeps.readable
        logs := by
          obtain ⟨entries, each, agrees, logs⟩ := keeps.logs
          refine ⟨entries, each, agrees, ?_⟩
          unfold Logs at logs ⊢
          rwa [← retained.logged, ← wal] at logs
        idle := wal ▸ keeps.idle }
  · rw [manifestIn, retained.manifest, ← sealed, ← retention]
    exact readManifest_manifestBytes retained.few
  · have known : segment.id ∈ (blocks.map (Block.part host)).map Prod.fst :=
      keeps.intact.listed ▸ List.mem_map_of_mem member
    obtain ⟨part, partMember, same⟩ := List.mem_map.mp known
    have absent : part.1 ∉ updated.map Prod.fst := by
      rw [same, retained.placed segment member, wanted]
      exact Bool.noConfusion
    rw [← same, (retained.loose part partMember).resolve_left absent]
    rfl

end SegmentStore

/-! ## Operations -/

/-- The frame of an entry as a batch hands it to the store. -/
def Entry.batchFrame (entry : Entry) : Except JournalError EntryFrame :=
  (encodeEntryPayload entry).map fun (dataLen, payload) =>
    { id := entry.id, dataLen, payload, faultRelevant := kindIsFaultRelevant entry.data.kind }

inductive Operation where
  | append (entry : Entry)
  | appendSlice (entries : List Entry)
  | appendFrames (entries : List Entry)
  | sealWriter
  | writeManifest
  | setRetention (retention : RetentionClass)

namespace Operation

open SegmentStore

def perform (host : Host) : Operation → Action SegmentStore JournalError Unit
  | append entry => SegmentStore.append host entry
  | appendSlice entries => SegmentStore.appendSlice host entries
  | appendFrames entries => do
      let frames ← ofExcept (entries.mapM batchFrame)
      SegmentStore.appendFrames host frames
  | sealWriter => SegmentStore.sealWriter host
  | writeManifest => SegmentStore.writeManifest
  | setRetention retention => SegmentStore.setRetention host retention

def entries : Operation → List Entry
  | append entry => [entry]
  | appendSlice entries | appendFrames entries => entries
  | sealWriter | writeManifest | setRetention _ => []

def Writes : Operation → Prop
  | append _ | appendSlice _ | appendFrames _ | sealWriter => True
  | writeManifest | setRetention _ => False

def sealedBuffer (store : SegmentStore) : Operation → Option Bytes
  | sealWriter => if store.writer.buffer.isEmpty then none else some store.writer.buffer
  | operation =>
    let buffer := store.writer.buffer ++ operation.entries.flatMap frame
    if ¬operation.entries.isEmpty ∧ segmentTargetSize ≤ buffer.length then some buffer else none

/-- The operation appends readable entries, and what it seals can be decoded again and gets an id
with a successor. -/
structure Restorable (host : Host) (store : SegmentStore) (operation : Operation) : Prop where
  readable : ∀ entry ∈ operation.entries, entry.Readable host.blake3
  fits : ∀ buffer, operation.sealedBuffer store = some buffer → host.Fits buffer
  room : (operation.sealedBuffer store).isSome → store.nextSegmentId.toNat + 1 < 2 ^ 64

/-- Nor is what it seals left out of a manifest that lists other segments. -/
structure Sound (host : Host) (store : SegmentStore) (operation : Operation) : Prop
    extends Restorable host store operation where
  listed : (operation.sealedBuffer store).isSome → store.retention = .hot →
    ∃ retention, manifestIn store.dir.files = .ok (retention, [])

end Operation

/-! ## Writing frames -/

theorem Entry.Readable.payload {blake3 : Bytes → EntryHash} {entry : Entry} (readable : entry.Readable blake3) :
    ∃ dataLen payload, encodeEntryPayload entry = .ok (dataLen, payload) ∧
      entry.frame = writeFrame entry.id dataLen payload := by
  have encodes := readable.encodes
  unfold encodeEntryFrame at encodes
  cases encoded : encodeEntryPayload entry with
  | error fault =>
    rw [encoded] at encodes
    cases encodes
  | ok parts =>
    rw [encoded] at encodes
    exact ⟨parts.1, parts.2, rfl, (Except.ok.inj encodes).symm⟩

namespace SegmentWriter

theorem drop_buffer_holding (entries others : List Entry) :
    (holding (entries ++ others)).buffer.drop (holding entries).buffer.length = others.flatMap frame := by
  have form : (holding (entries ++ others)).buffer =
      (holding entries).buffer ++ others.flatMap frame := flatMap_append ..
  rw [form, drop_left]

theorem appendSlice_holding {blake3 : Bytes → EntryHash} {entries : List Entry}
    (readable : ∀ entry ∈ entries, entry.Readable blake3) (before : List Entry) :
    appendSlice entries (holding before) = (.ok (), holding (before ++ entries)) := by
  induction entries generalizing before with
  | nil => rw [append_nil]; rfl
  | cons entry entries ih =>
    obtain ⟨dataLen, payload, encoded, framed⟩ := (readable entry mem_cons_self).payload
    rw [appendSlice, encoded, ofExcept_ok_bind]
    dsimp only
    rw [modify_bind, ← framed, push_holding, ih fun entry member => readable entry (mem_cons_of_mem _ member),
      append_assoc, singleton_append]

theorem appendFrames_holding {blake3 : Bytes → EntryHash} {entries : List Entry}
    (readable : ∀ entry ∈ entries, entry.Readable blake3) :
    ∃ frames, entries.mapM batchFrame = .ok frames ∧ frames.isEmpty = entries.isEmpty ∧
      ∀ before, (holding before).appendFrames frames = holding (before ++ entries) := by
  induction entries with
  | nil => exact ⟨[], rfl, rfl, fun before => by rw [append_nil]; rfl⟩
  | cons entry entries ih =>
    obtain ⟨dataLen, payload, encoded, framed⟩ := (readable entry mem_cons_self).payload
    obtain ⟨frames, mapped, _, appended⟩ :=
      ih fun entry member => readable entry (mem_cons_of_mem _ member)
    let frame : EntryFrame :=
      { id := entry.id, dataLen, payload, faultRelevant := kindIsFaultRelevant entry.data.kind }
    refine ⟨frame :: frames, ?_, rfl, fun before => ?_⟩
    · rw [mapM_cons, batchFrame, encoded, mapped]
      rfl
    · rw [appendFrames, foldl_cons, ← appendFrames, ← framed, push_holding, appended,
        append_assoc, singleton_append]

end SegmentWriter

namespace SegmentStore

variable {store : SegmentStore} {host : Host} {blocks : List Block} {records : List ArchiveRecord}
  {tail : List Entry}

theorem onWriter_of {α : Type} {action : Action SegmentWriter JournalError α} {value : α}
    {writer : SegmentWriter} (ran : action store.writer = (.ok value, writer)) :
    onWriter action store = (.ok value, { store with writer }) := by
  simp only [onWriter, zoom, ran]

theorem append_eq (keeps : Keeps host blocks records tail store) {entry : Entry}
    (readable : entry.Readable host.blake3) :
    ∃ between, append host entry store = sealIfFull host between ∧
      Keeps host blocks records (tail ++ [entry]) between ∧ SameSealed store between := by
  obtain ⟨opened, ensured, kept, same, sameWriter, isOpen⟩ := ensureWal_keeps keeps
  obtain ⟨between, written, final, further⟩ := writeWal_keeps kept isOpen (forall_mem_singleton.mpr readable)
  rw [flatMap_singleton] at written
  have appended : onWriter (SegmentWriter.append entry) opened = _ :=
    onWriter_of (by rw [kept.written]; exact append_holding tail readable.encodes)
  refine ⟨between, ?_, final, same.trans further⟩
  exact (bind_of_ok ensured).trans ((bind_of_ok appended).trans (bind_of_ok written))

theorem writeRange_eq (keeps : Keeps host blocks records tail store) {entries : List Entry}
    (readable : ∀ entry ∈ entries, entry.Readable host.blake3)
    {action : Action SegmentWriter JournalError Unit}
    (appends : action (.holding tail) = (.ok (), .holding (tail ++ entries))) :
    ∃ between, (do
        ensureWal
        let start := (← Action.get).writer.buffer.length
        onWriter action
        writeWalRange start
        sealIfFull host) store = sealIfFull host between ∧
      Keeps host blocks records (tail ++ entries) between ∧ SameSealed store between := by
  obtain ⟨opened, ensured, kept, same, sameWriter, isOpen⟩ := ensureWal_keeps keeps
  obtain ⟨between, written, final, further⟩ := writeWal_keeps kept isOpen readable
  have appended : onWriter action opened = _ := onWriter_of (by rw [kept.written]; exact appends)
  have ranged : writeWalRange opened.writer.buffer.length
      { opened with writer := .holding (tail ++ entries) } = (.ok (), between) := by
    rw [writeWalRange, get_bind, kept.written, drop_buffer_holding]
    exact written
  refine ⟨between, ?_, final, same.trans further⟩
  exact (bind_of_ok ensured).trans ((bind_of_ok appended).trans (bind_of_ok ranged))

/-! ## One operation -/

/-- What the manifest lists is nothing or every sealed segment with its flag. -/
structure Consistent (host : Host) (blocks : List Block) (records : List ArchiveRecord)
    (tail : List Entry) (store : SegmentStore) : Prop extends Keeps host blocks records tail store where
  manifest : ∃ retention listed, manifestIn store.dir.files = .ok (retention, listed) ∧
    (listed = [] ∨ listed = store.sealed.map SealedSegment.manifestEntry)

/-- Entries are held by the open writer, or sealed into the next block. -/
inductive Advances (host : Host) (blocks : List Block) (entries : List Entry) (store : SegmentStore) :
    List Block → List Entry → SegmentStore → Prop where
  | held {after : SegmentStore} (sealed : after.sealed = store.sealed)
      (next : after.nextSegmentId = store.nextSegmentId) : Advances host blocks entries store blocks
        entries after
  | full {after : SegmentStore} (sealed : after.sealed = store.sealed ++
        [(holding entries).metadata host store.nextSegmentId])
      (next : after.nextSegmentId = store.nextSegmentId + 1) :
      Advances host blocks entries store (blocks ++ [⟨store.nextSegmentId, entries⟩]) [] after

theorem Advances.entries {entries held : List Entry} {after : SegmentStore} {grown : List Block}
    (advances : Advances host blocks entries store grown held after) :
    grown.flatMap Block.entries ++ held = blocks.flatMap Block.entries ++ entries := by
  cases advances with
  | held => rfl
  | full => rw [flatMap_append, flatMap_singleton, append_nil]

theorem manifestIn_congr {files after : Files FileName}
    (same : after.lookup .manifest = files.lookup .manifest) : manifestIn after = manifestIn files := by
  unfold manifestIn
  rw [same]

theorem sealWriter_consistent (consistent : Consistent host blocks records tail store)
    (nonempty : tail ≠ []) (fits : host.Fits store.writer.buffer)
    (room : store.nextSegmentId.toNat + 1 < 2 ^ 64)
    (listed : store.retention = .hot → ∃ retention, manifestIn store.dir.files = .ok (retention, [])) :
    ∃ after updated, sealWriter host store = (.ok (), after) ∧
      Consistent host (blocks ++ [⟨store.nextSegmentId, tail⟩]) updated [] after ∧
      after.retention = store.retention ∧ after.nextSegmentId = store.nextSegmentId + 1 ∧
      after.sealed = store.sealed ++ [(holding tail).metadata host store.nextSegmentId] ∧
      (store.retention = .hot → manifestIn after.dir.files = manifestIn store.dir.files) := by
  obtain ⟨between, ran, kept, retention, next, sealed, manifest⟩ :=
    sealWriter_keeps consistent.toKeeps nonempty fits room
  rw [consistent.written] at sealed
  by_cases hot : store.retention = .hot
  · rw [if_neg (not_not.mpr hot)] at ran
    obtain ⟨loaded, unlisted⟩ := listed hot
    have same := manifestIn_congr manifest
    exact ⟨between, records, ran, { kept with manifest := ⟨loaded, [], same.trans unlisted, .inl rfl⟩ },
      retention, next, sealed, fun _ => same⟩
  · rw [if_pos hot] at ran
    obtain ⟨after, updated, retained, final, sameSealed, sameRetention, sameNext, wrote, _⟩ :=
      retain_keeps kept
    refine ⟨after, updated, ran.trans retained, { final with manifest := ⟨_, _, wrote, .inr ?_⟩ },
      sameRetention.trans retention, sameNext.trans next, sameSealed.trans sealed,
      fun isHot => absurd isHot hot⟩
    rw [sameSealed]

theorem Keeps.withRetention (keeps : Keeps host blocks records tail store) (retention : RetentionClass) :
    Keeps host blocks records tail { store with retention } where
  reliable := keeps.reliable
  layout := keeps.layout
  valid := keeps.valid
  describes := keeps.describes
  archived := keeps.archived
  below := keeps.below
  written := keeps.written
  readable := keeps.readable
  logs := keeps.logs
  idle := keeps.idle

theorem writeManifest_keeps (keeps : Keeps host blocks records tail store) :
    ∃ after, writeManifest store = (.ok (), after) ∧ Keeps host blocks records tail after ∧
      after.sealed = store.sealed ∧ after.retention = store.retention ∧
      after.nextSegmentId = store.nextSegmentId ∧
      manifestIn after.dir.files = .ok (store.retention, store.sealed.map SealedSegment.manifestEntry) := by
  obtain ⟨files, written, manifest, replaced⟩ := writeManifest_eq keeps.reliable keeps.few
  have others (name : FileName) (other : name ≠ .manifest) (temporary : name ≠ .manifestTmp) :
      files.lookup name = store.dir.files.lookup name := by
    rw [replaced, if_neg other, if_neg temporary]
  exact ⟨_, written, keeps.withFiles (others _ (by simp) (by simp))
    (fun id => others _ (by simp) (by simp)) (others _ (by simp) (by simp)), rfl, rfl, rfl, manifest⟩

theorem sealIfFull_consistent (consistent : Consistent host blocks records tail store)
    (nonempty : tail ≠ []) (fits : store.writer.shouldSeal → host.Fits store.writer.buffer)
    (room : store.writer.shouldSeal → store.nextSegmentId.toNat + 1 < 2 ^ 64)
    (listed : store.writer.shouldSeal → store.retention = .hot →
      ∃ retention, manifestIn store.dir.files = .ok (retention, [])) :
    ∃ after grown updated held, sealIfFull host store = (.ok (), after) ∧
      Consistent host grown updated held after ∧ Advances host blocks tail store grown held after ∧
      after.retention = store.retention ∧
      (store.retention = .hot → manifestIn after.dir.files = manifestIn store.dir.files) := by
  rw [sealIfFull, get_bind]
  by_cases full : store.writer.shouldSeal
  · obtain ⟨after, updated, ran, final, retention, next, sealed, manifest⟩ :=
      sealWriter_consistent consistent nonempty (fits full) (room full) (listed full)
    rw [if_pos full]
    exact ⟨after, _, updated, [], ran, final, .full sealed next, retention, manifest⟩
  · rw [if_neg full]
    exact ⟨store, blocks, records, tail, rfl, consistent, .held rfl rfl, rfl, fun _ => rfl⟩

theorem Consistent.of_same (consistent : Consistent host blocks records tail store)
    {after : SegmentStore} {held : List Entry} (kept : Keeps host blocks records held after)
    (same : SameSealed store after) : Consistent host blocks records held after :=
  { kept with
    manifest := by
      obtain ⟨retention, listed, read, all⟩ := consistent.manifest
      refine ⟨retention, listed, (manifestIn_congr (same.files _ (by simp))).trans read, ?_⟩
      rwa [same.sealed] }

theorem Advances.of_same {after between : SegmentStore} {entries held : List Entry}
    {grown : List Block} (advances : Advances host blocks entries between grown held after)
    (same : SameSealed store between) : Advances host blocks entries store grown held after := by
  cases advances with
  | held sealed next => exact .held (sealed.trans same.sealed) (next.trans same.next)
  | full sealed next =>
    rw [same.next] at sealed next ⊢
    rw [same.sealed] at sealed
    exact .full sealed next

theorem appended_consistent {between : SegmentStore} {operation : Operation}
    (consistent : Consistent host blocks records tail store)
    (sound : operation.Sound host store) (nonempty : operation.entries ≠ [])
    (seals : operation.sealedBuffer store =
      if segmentTargetSize ≤ (store.writer.buffer ++ operation.entries.flatMap frame).length then
        some (store.writer.buffer ++ operation.entries.flatMap frame)
      else none)
    (kept : Keeps host blocks records (tail ++ operation.entries) between)
    (same : SameSealed store between) :
    ∃ after grown updated held, sealIfFull host between = (.ok (), after) ∧
      Consistent host grown updated held after ∧
      Advances host blocks (tail ++ operation.entries) store grown held after ∧
      after.retention = store.retention ∧
      (store.retention = .hot → manifestIn after.dir.files = manifestIn store.dir.files) := by
  have buffer : between.writer.buffer = store.writer.buffer ++ operation.entries.flatMap frame := by
    rw [kept.written, consistent.written]
    exact flatMap_append ..
  have sealing (full : between.writer.shouldSeal) :
      operation.sealedBuffer store = some between.writer.buffer := by
    rw [seals, ← buffer, if_pos (by simpa [shouldSeal] using full)]
  have unchanged : manifestIn between.dir.files = manifestIn store.dir.files :=
    manifestIn_congr (same.files _ (by simp))
  obtain ⟨after, grown, updated, held, ran, final, advances, retention, manifest⟩ :=
    sealIfFull_consistent (consistent.of_same kept same) (by simp [nonempty])
      (fun full => sound.fits _ (sealing full))
      (fun full => by
        rw [same.next]
        exact sound.room (Option.isSome_iff_exists.mpr ⟨_, sealing full⟩))
      (fun full hot => by
        rw [unchanged]
        rw [same.retention] at hot
        exact sound.listed (Option.isSome_iff_exists.mpr ⟨_, sealing full⟩) hot)
  rw [same.retention, unchanged] at manifest
  exact ⟨after, grown, updated, held, ran, final, advances.of_same same,
    retention.trans same.retention, manifest⟩

theorem sealedBuffer_of_nonempty {operation : Operation} (nonempty : operation.entries ≠ []) :
    operation.sealedBuffer store =
      if segmentTargetSize ≤ (store.writer.buffer ++ operation.entries.flatMap frame).length then
        some (store.writer.buffer ++ operation.entries.flatMap frame)
      else none := by
  cases operation with
  | sealWriter | writeManifest | setRetention _ => exact absurd rfl nonempty
  | append _ | appendSlice _ | appendFrames _ => simp [Operation.sealedBuffer, nonempty]

theorem perform_consistent (consistent : Consistent host blocks records tail store)
    {operation : Operation} (sound : operation.Sound host store) :
    ∃ after grown updated held, operation.perform host store = (.ok (), after) ∧
      Consistent host grown updated held after ∧
      Advances host blocks (tail ++ operation.entries) store grown held after ∧
      (operation.Writes → after.retention = store.retention ∧
        (store.retention = .hot → manifestIn after.dir.files = manifestIn store.dir.files)) := by
  have appends (nonempty : operation.entries ≠ [])
      (ran : ∃ between, operation.perform host store = sealIfFull host between ∧
        Keeps host blocks records (tail ++ operation.entries) between ∧ SameSealed store between) :
      ∃ after grown updated held, operation.perform host store = (.ok (), after) ∧
        Consistent host grown updated held after ∧
        Advances host blocks (tail ++ operation.entries) store grown held after ∧
        (operation.Writes → after.retention = store.retention ∧
          (store.retention = .hot → manifestIn after.dir.files = manifestIn store.dir.files)) := by
    obtain ⟨between, appended, kept, same⟩ := ran
    obtain ⟨after, grown, updated, held, sealing, final, advances, retention, manifest⟩ :=
      appended_consistent consistent sound nonempty (sealedBuffer_of_nonempty nonempty) kept same
    exact ⟨after, grown, updated, held, appended.trans sealing, final, advances, fun _ => ⟨retention, manifest⟩⟩
  cases operation with
  | append entry =>
    exact appends (by simp [Operation.entries])
      (append_eq consistent.toKeeps (sound.readable entry mem_cons_self))
  | appendSlice entries =>
    cases entries with
    | nil =>
      refine ⟨store, blocks, records, tail, rfl, consistent, ?_, fun _ => ⟨rfl, fun _ => rfl⟩⟩
      rw [Operation.entries, append_nil]
      exact .held rfl rfl
    | cons entry rest =>
      exact appends (by simp [Operation.entries]) (writeRange_eq consistent.toKeeps sound.readable
        (SegmentWriter.appendSlice_holding sound.readable tail))
  | appendFrames entries =>
    obtain ⟨frames, mapped, empty, appended⟩ := SegmentWriter.appendFrames_holding sound.readable
    cases entries with
    | nil =>
      refine ⟨store, blocks, records, tail, rfl, consistent, ?_, fun _ => ⟨rfl, fun _ => rfl⟩⟩
      rw [Operation.entries, append_nil]
      exact .held rfl rfl
    | cons entry rest =>
      refine appends (by simp [Operation.entries]) ?_
      have modified : (Action.modify (SegmentWriter.appendFrames frames) :
          Action SegmentWriter JournalError Unit) (.holding tail) =
            (.ok (), .holding (tail ++ (entry :: rest))) := by
        rw [modify_apply, appended]
        rfl
      obtain ⟨between, ran, kept⟩ := writeRange_eq consistent.toKeeps sound.readable modified
      refine ⟨between, ?_, kept⟩
      have encoded : (entry :: rest).mapM batchFrame = .ok frames := mapped
      have some : frames.isEmpty = false := empty
      rw [← ran, Operation.perform, encoded, ofExcept_ok_bind, SegmentStore.appendFrames, some]
      rfl
  | sealWriter =>
    rw [Operation.entries, append_nil]
    have emptiness : store.writer.isEmpty = tail.isEmpty := by
      rw [consistent.written, isEmpty_holding consistent.readable]
    cases tail with
    | nil =>
      refine ⟨store, blocks, records, [], ?_, consistent, .held rfl rfl, fun _ => ⟨rfl, fun _ => rfl⟩⟩
      rw [Operation.perform, SegmentStore.sealWriter, get_bind, emptiness]
      rfl
    | cons entry rest =>
      have sealing : Operation.sealWriter.sealedBuffer store = some store.writer.buffer := by
        rw [Operation.sealedBuffer, show store.writer.buffer.isEmpty = _ from emptiness]
        rfl
      have seals := Option.isSome_iff_exists.mpr ⟨_, sealing⟩
      obtain ⟨after, updated, ran, final, retention, next, sealed, manifest⟩ :=
        sealWriter_consistent consistent (cons_ne_nil _ _) (sound.fits _ sealing)
          (sound.room seals) (sound.listed seals)
      exact ⟨after, _, updated, [], ran, final, .full sealed next, fun _ => ⟨retention, manifest⟩⟩
  | writeManifest =>
    obtain ⟨after, ran, kept, sealed, retention, next, manifest⟩ :=
      writeManifest_keeps consistent.toKeeps
    rw [Operation.entries, append_nil]
    refine ⟨after, blocks, records, tail, ran, { kept with manifest := ⟨_, _, manifest, .inr ?_⟩ },
      .held sealed next, False.elim⟩
    rw [sealed]
  | setRetention retention =>
    obtain ⟨after, updated, ran, kept, sealed, _, next, manifest, _⟩ :=
      retain_keeps (consistent.toKeeps.withRetention retention)
    rw [Operation.entries, append_nil]
    refine ⟨after, blocks, updated, tail, ran, { kept with manifest := ⟨_, _, manifest, .inr ?_⟩ },
      .held sealed next, False.elim⟩
    rw [sealed]

end SegmentStore

end Ldgr
