import Ldgr.Journal.Segment.Recovery
import Ldgr.Journal.Segment.StoreProperties

/-! A store is loaded with the segments its directory holds and the entries of its log that no
segment holds. -/

namespace Ldgr

open Base Format Action SortedMap SegmentStore Directory Entry List

variable {store : SegmentStore} {host : Host} {files : Files FileName} {blocks : List Block}
  {records : List ArchiveRecord}

/-- The manifest of a directory; a missing one lists nothing. -/
def manifestIn (files : Files FileName) : Except JournalError (RetentionClass × List ManifestEntry) :=
  match files.lookup .manifest with
  | none => .ok (.hot, [])
  | some bytes => readManifest bytes

/-- The blocks a directory holds, in the archive or as loose files, and no other segment. -/
structure Layout (host : Host) (files : Files FileName) (blocks : List Block)
    (records : List ArchiveRecord) : Prop where
  ascending : blocks.Pairwise (·.id < ·.id)
  archive : ArchiveStore.loaded host.blake3 files = .ok records
  archived : ∀ record ∈ records, ∃ block ∈ blocks, record = (block.id, block.file host)
  loose : ∀ block ∈ blocks, block.id ∈ records.map Prod.fst ∨
    files.lookup (.segment block.id) = some (block.file host)
  known : ∀ id, (files.lookup (.segment id)).isSome → id ∈ blocks.map Block.id

namespace Layout

variable (layout : Layout host files blocks records)
include layout

theorem ids_nodup : (blocks.map Block.id).Nodup :=
  pairwise_map.mpr (layout.ascending.imp fun below => below.ne)

theorem eq_of_id {block other : Block} (member : block ∈ blocks) (listed : other ∈ blocks)
    (same : block.id = other.id) : block = other :=
  inj_on_of_nodup_map layout.ids_nodup member listed same

theorem finds {block : Block} (member : block ∈ blocks) :
    SegmentStore.Finds host (ofList records).entries files block := by
  cases found : (ofList records).lookup block.id with
  | some bytes =>
    obtain ⟨other, listed, same⟩ := layout.archived _ (mem_of_lookup_ofList found)
    obtain ⟨sameId, rfl⟩ := Prod.ext_iff.mp same
    cases layout.eq_of_id member listed sameId
    exact .inl found
  | none =>
    have absent : block.id ∉ records.map Prod.fst := fun archived => by
      have present := isSome_lookup_ofList.mpr archived
      rw [found] at present
      cases present
    exact .inr ⟨found, (layout.loose block member).resolve_left absent⟩

end Layout

namespace SegmentStore

theorem readManifestFile_eq (reliable : store.dir = .ofFiles files) :
    readManifestFile store = (manifestIn files, store) := by
  refine (bind_of_ok (onDir_stays reliable (isFile_ofFiles files .manifest))).trans ?_
  unfold manifestIn
  cases present : files.lookup .manifest with
  | none => rfl
  | some bytes => exact bind_of_ok (disk_read reliable present)

theorem sort_discovered (layout : Layout host files blocks records) :
    let ids := (files.keys.filterMap FileName.segmentId).insertionSort (· ≤ ·)
    (ids ++ ((ofList records).entries.map Prod.fst).filter fun id => !ids.contains id).insertionSort
      (· ≤ ·) = blocks.map Block.id := by
  intro ids
  have mem_ids (id : UInt64) : id ∈ ids ↔ (files.lookup (.segment id)).isSome := by
    rw [mem_insertionSort, mem_filterMap, AList.lookup_isSome, AList.mem_keys]
    constructor
    · rintro ⟨name, listed, named⟩
      cases name <;> cases named
      exact listed
    · intro listed
      exact ⟨_, listed, rfl⟩
  have mem_keys (id : UInt64) : id ∈ (ofList records).entries.map Prod.fst ↔ id ∈ records.map Prod.fst := by
    refine Iff.trans ?_ isSome_lookup_ofList
    simp [Option.isSome_iff_exists, SortedMap.lookup_eq_some_iff]
  have idsNodup : ids.Nodup := by
    refine (perm_insertionSort ..).nodup_iff.mpr (files.keys_nodup.filterMap ?_)
    intro name other id named same
    cases name <;> cases named
    cases other <;> cases same
    rfl
  have keysNodup : ((ofList records).entries.map Prod.fst).Nodup :=
    pairwise_map.mpr ((ofList records).ascending.imp fun below => below.ne)
  have nodup : (ids ++ ((ofList records).entries.map Prod.fst).filter fun id => !ids.contains id).Nodup := by
    refine idsNodup.append (keysNodup.filter _) ?_
    intro id found kept
    simp [found] at kept
  have same : (ids ++ ((ofList records).entries.map Prod.fst).filter
      fun id => !ids.contains id).Perm (blocks.map Block.id) := by
    refine (perm_ext_iff_of_nodup nodup layout.ids_nodup).mpr fun id => ?_
    rw [mem_append, mem_filter, mem_ids, mem_keys]
    constructor
    · rintro (found | ⟨archived, _⟩)
      · exact layout.known id found
      · obtain ⟨record, listed, rfl⟩ := mem_map.mp archived
        obtain ⟨block, member, rfl⟩ := layout.archived record listed
        exact mem_map_of_mem member
    · intro listed
      obtain ⟨block, member, rfl⟩ := mem_map.mp listed
      by_cases found : (files.lookup (.segment block.id)).isSome
      · exact .inl found
      · refine .inr ⟨(layout.loose block member).resolve_right fun present => ?_, ?_⟩
        · rw [present] at found
          exact found rfl
        · simpa [mem_ids] using found
  refine List.Perm.eq_of_pairwise' (pairwise_insertionSort _ _) ?_
    ((perm_insertionSort ..).trans same)
  exact pairwise_map.mpr (layout.ascending.imp fun below => below.le)

theorem listSegmentIds_discovered (layout : Layout host files blocks records)
    (reliable : store.dir = .ofFiles files) :
    listSegmentIds [] (ofList records) store = (.ok (blocks.map Block.id), store) := by
  have discovered : discoverSegmentIds store =
      (.ok ((files.keys.filterMap FileName.segmentId).insertionSort (· ≤ ·)), store) :=
    bind_of_ok (disk_stays reliable (readDir_ofFiles files))
  refine (bind_of_ok discovered).trans ?_
  rw [← sort_discovered layout]
  rfl

theorem readSegmentMeta_of_lookup (reliable : store.dir = .ofFiles files) {id : UInt64}
    {bytes : Bytes} (present : files.lookup (.segment id) = some bytes) :
    readSegmentMeta host id store = (parseSegmentBytes host bytes id, store) := by
  refine (bind_of_ok (onDir_stays reliable (isFile_ofFiles files (.segment id)))).trans ?_
  rw [present]
  exact bind_of_ok (disk_read reliable present)

section Blocks

variable {archived : SortedMap UInt64 Bytes} (lawful : host.Lawful) (reliable : store.dir = .ofFiles files)

include lawful reliable

theorem parseSegment_of_finds {block : Block} (valid : block.Valid host)
    (finds : Finds host archived.entries files block) :
    parseSegment host archived block.id store = (.ok (some (block.segment host false)), store) := by
  unfold parseSegment SortedMap.lookup
  obtain kept | ⟨absent, loose⟩ := finds
  · rw [kept, ← valid.parses lawful]
    rfl
  · rw [absent, ← valid.parses lawful]
    exact readSegmentMeta_of_lookup reliable loose

theorem loadSegments_cons {flags : SortedMap UInt64 Bool} {block : Block}
    (valid : block.Valid host) (finds : Finds host archived.entries files block) (ids : List UInt64) :
    loadSegments host archived flags (block.id :: ids) store =
      ((loadSegments host archived flags ids store).1.map
        (block.segment host ((flags.lookup block.id).getD false) :: ·),
        (loadSegments host archived flags ids store).2) := by
  refine (bind_of_ok (parseSegment_of_finds lawful reliable valid finds)).trans ?_
  exact bind_pure_apply ..

theorem loadSegments_blocks (flags : SortedMap UInt64 Bool)
    (valid : ∀ block ∈ blocks, block.Valid host)
    (finds : ∀ block ∈ blocks, Finds host archived.entries files block) (ids : List UInt64) :
    loadSegments host archived flags (blocks.map Block.id ++ ids) store =
      ((loadSegments host archived flags ids store).1.map
        (blocks.map (fun block => block.segment host ((flags.lookup block.id).getD false)) ++ ·),
        (loadSegments host archived flags ids store).2) := by
  induction blocks with
  | nil =>
    rw [map_nil, nil_append]
    cases loadSegments host archived flags ids store with
    | mk outcome after => cases outcome <;> rfl
  | cons block blocks ih =>
    have rest := ih (fun block member => valid block (mem_cons_of_mem _ member))
      (fun block member => finds block (mem_cons_of_mem _ member))
    rw [map_cons, cons_append, loadSegments_cons lawful reliable
      (valid block mem_cons_self) (finds block mem_cons_self), rest]
    cases loadSegments host archived flags ids store with
    | mk outcome after => cases outcome <;> rfl

end Blocks

def nextIdAfter (ids : List UInt64) : UInt64 :=
  (ids.getLast?.map (· + 1)).getD 0

def flagsOf (manifest : List ManifestEntry) : SortedMap UInt64 Bool :=
  ofList (manifest.map fun entry => (entry.id, entry.faultRelevant))

/-- The fault flag a manifest gives a segment; without one it is unset. -/
def flagOf (manifest : List ManifestEntry) (id : UInt64) : Bool :=
  ((flagsOf manifest).lookup id).getD false

def withLoaded (retention : RetentionClass) (ids : List UInt64) (records : List ArchiveRecord)
    (sealed : List SealedSegment) (store : SegmentStore) : SegmentStore :=
  let archived := (ofList records).entries.filter fun record =>
    (sealed.map (·.id)).contains record.1
  { store with
    nextSegmentId := nextIdAfter ids
    sealed
    archived
    retention := effectiveRetention retention sealed archived }

variable {manifest : List ManifestEntry}

theorem listSegmentIds_eq (layout : Layout host files blocks records)
    (reliable : store.dir = .ofFiles files)
    (listed : manifest = [] ∨ manifest.map (·.id) = blocks.map Block.id) :
    listSegmentIds manifest (ofList records) store = (.ok (blocks.map Block.id), store) := by
  cases manifest with
  | nil => exact listSegmentIds_discovered layout reliable
  | cons entry entries =>
    rw [← listed.resolve_left (cons_ne_nil _ _)]
    rfl

theorem loadSealedSegments_of {retention : RetentionClass}
    (reliable : store.dir = .ofFiles files) (layout : Layout host files blocks records)
    (read : manifestIn files = .ok (retention, manifest))
    (listed : manifest = [] ∨ manifest.map (·.id) = blocks.map Block.id)
    {outcome : Except JournalError (List SealedSegment)}
    (loaded : ∀ store : SegmentStore, store.dir = .ofFiles files →
      loadSegments host (ofList records) (flagsOf manifest) (blocks.map Block.id) store = (outcome, store)) :
    loadSealedSegments host store = match outcome with
      | .ok sealed => (.ok (), store.withLoaded retention (blocks.map Block.id) records sealed)
      | .error fault => (.error fault, { store with nextSegmentId := nextIdAfter (blocks.map Block.id) }) := by
  have manifested := readManifestFile_eq reliable
  rw [read] at manifested
  have archived := onDir_stays reliable (ArchiveStore.load_ofFiles host.blake3 files)
  rw [layout.archive] at archived
  have found := loaded { store with nextSegmentId := nextIdAfter (blocks.map Block.id) } reliable
  refine (bind_of_ok manifested).trans ((bind_of_ok archived).trans
    ((bind_of_ok (listSegmentIds_eq layout reliable listed)).trans
      ((modify_bind ..).trans ?_)))
  cases outcome with
  | ok sealed => exact (bind_of_ok found).trans rfl
  | error fault => exact bind_of_error found

theorem filter_archived (layout : Layout host files blocks records) {sealed : List SealedSegment}
    (ids : sealed.map (·.id) = blocks.map Block.id) :
    ((ofList records).entries.filter fun record =>
      (sealed.map (·.id)).contains record.1) = (ofList records).entries := by
  refine filter_eq_self.mpr fun record member => ?_
  have listed := mem_of_lookup_ofList (lookup_eq_some_iff.mpr member)
  obtain ⟨block, kept, rfl⟩ := layout.archived record listed
  rw [ids, contains_iff_mem]
  exact mem_map_of_mem kept

/-- The segments of valid blocks, with the flags of the manifest. -/
def segmentsOf (host : Host) (manifest : List ManifestEntry) (blocks : List Block) : List SealedSegment :=
  blocks.map fun block => block.segment host (flagOf manifest block.id)

theorem describes_segmentsOf (host : Host) (manifest : List ManifestEntry) (blocks : List Block) :
    Describes host blocks (segmentsOf host manifest blocks) := by
  induction blocks with
  | nil => exact .nil
  | cons block blocks ih => exact .cons rfl ih

theorem loadSegments_valid (lawful : host.Lawful)
    (layout : Layout host files blocks records) (valid : ∀ block ∈ blocks, block.Valid host)
    (store : SegmentStore) (reliable : store.dir = .ofFiles files) :
    loadSegments host (ofList records) (flagsOf manifest) (blocks.map Block.id) store =
      (.ok (segmentsOf host manifest blocks), store) := by
  have loaded := loadSegments_blocks lawful reliable (flagsOf manifest) valid
    (fun block member => layout.finds member) []
  rw [append_nil] at loaded
  rw [loaded]
  refine Prod.ext (congrArg Except.ok ?_) rfl
  exact append_nil _

end SegmentStore

/-! ## Recovery log -/

/-- Bytes in which the scan for complete frames finds none. -/
def IncompleteFrame (rest : Bytes) : Prop :=
  rest.length < 8 ∨ leAt 8 rest 0 < minFramePayload ∨ rest.length < 8 + leAt 8 rest 0

theorem incompleteFrame_nil : IncompleteFrame [] :=
  .inl (by decide)

theorem leAt_append_left (width : Nat) (front rest : Bytes) :
    leAt width (front ++ rest) front.length = leAt width rest 0 := by
  rw [leAt, leAt, slice, slice, drop_left, drop_zero]

variable {entries : List Entry}

theorem completeFramesEnd_frames (encodes : Encoded entries) {rest : Bytes}
    (incomplete : IncompleteFrame rest) (front : Bytes) {fuel : Nat}
    (enough : entries.length ≤ fuel) :
    completeFramesEnd (front ++ (entries.flatMap frame ++ rest)) fuel front.length =
      front.length + (entries.flatMap frame).length := by
  induction entries generalizing front fuel with
  | nil =>
    rw [flatMap_nil, nil_append, length_nil, Nat.add_zero]
    cases fuel with
    | zero => rfl
    | succ fuel =>
      rw [completeFramesEnd, leAt_append_left, length_append]
      obtain short | small | cut := incomplete
      · rw [if_pos (by omega)]
      · rw [if_pos small, ite_self]
      · rw [if_pos (show front.length + rest.length < front.length + 8 + leAt 8 rest 0 by omega),
          ite_self, ite_self]
  | cons entry entries ih =>
    obtain ⟨fuel, rfl⟩ : ∃ less, fuel = less + 1 :=
      ⟨fuel - 1, by rw [length_cons] at enough; omega⟩
    obtain ⟨payload, same, long, fits⟩ := encodeEntryFrame_cases (encodes entry mem_cons_self)
    have size : entry.frame.length = 8 + payload.length := by rw [same, length_framed]
    have stored : leAt 8 (front ++ (entry.frame ++ (entries.flatMap frame ++ rest)))
        front.length = payload.length := by
      rw [same, framed, append_assoc, leAt_append _ rfl fits]
    have others := ih (fun entry member => encodes entry (mem_cons_of_mem _ member))
      (front ++ entry.frame) (Nat.le_of_succ_le_succ enough)
    rw [length_append, append_assoc, size, ← Nat.add_assoc] at others
    rw [flatMap_cons, append_assoc, completeFramesEnd, stored, others]
    simp only [length_append, size]
    rw [minFramePayload, if_neg (by omega), if_neg (by omega), if_neg (by omega)]
    omega

theorem length_walPrefix : walPrefix.length = framePrefixLen := rfl

theorem lastCompleteFrameEnd_frames (encodes : Encoded entries) {rest : Bytes}
    (incomplete : IncompleteFrame rest) :
    lastCompleteFrameEnd (walPrefix ++ (entries.flatMap frame ++ rest)) =
      (walPrefix ++ entries.flatMap frame).length := by
  have each := length_le_of_encodes encodes
  have long : ¬(walPrefix ++ (entries.flatMap frame ++ rest)).length <
      framePrefixLen := by
    rw [length_append, length_walPrefix]
    omega
  rw [lastCompleteFrameEnd, if_neg long, ← length_walPrefix, completeFramesEnd_frames encodes incomplete,
    length_append]
  simp only [length_append]
  omega

theorem checkWalPrefix_append (rest : Bytes) : checkWalPrefix (walPrefix ++ rest) = .ok () := by
  rw [checkWalPrefix, walPrefix, parsePrefix_encodePrefix rfl (by decide)]
  rfl

theorem unsealedEntries_encoded (encodes : Encoded entries)
    (sealedIds : List EntryHash) (rest : Bytes) :
    unsealedEntries host sealedIds (walPrefix ++ (entries.flatMap frame ++ rest))
        (walPrefix ++ entries.flatMap frame).length =
      (entries.mapM (reread host.blake3)).map (filter fun entry => entry.id ∉ sealedIds) := by
  have enough : entries.length ≤ (walPrefix ++ (entries.flatMap frame ++ rest)).length := by
    have := length_le_of_encodes encodes
    simp only [length_append]
    omega
  have step : (fun (recovered : List Entry) (_ : Nat) (entry : Entry) =>
      (.ok (if entry.id ∈ sealedIds then recovered else recovered ++ [entry]) :
        Except JournalError (List Entry))) =
      fun recovered _ entry =>
        .ok (if decide (entry.id ∉ sealedIds) then recovered ++ [entry] else recovered) := by
    funext recovered _ entry
    by_cases known : entry.id ∈ sealedIds <;> simp [known]
  rw [unsealedEntries, length_append, step,
    show framePrefixLen = walPrefix.length from rfl,
    foldFrames_encoded encodes _ _ rest enough, collect_reread]
  rfl

theorem append_holding (entries : List Entry) {entry : Entry}
    (encodes : encodeEntryFrame entry = .ok entry.frame) :
    SegmentWriter.append entry (.holding entries) = (.ok entry.frame, .holding (entries ++ [entry])) := by
  rw [SegmentWriter.append, encodes, ofExcept_ok_bind, modify_bind, SegmentWriter.push_holding]
  rfl

namespace SegmentStore

theorem forM_restoreEntry (entries : List Entry) {before : List Entry}
    (readable : ∀ entry ∈ entries, entry.Readable host.blake3)
    (written : store.writer = .holding before) :
    entries.forM restoreEntry store = (.ok (), { store with writer := .holding (before ++ entries) }) := by
  induction entries generalizing store before with
  | nil => rw [append_nil, ← written]; rfl
  | cons entry entries ih =>
    have appended : onWriter (SegmentWriter.append entry) store =
        (.ok entry.frame, { store with writer := .holding (before ++ [entry]) }) := by
      simp only [onWriter, zoom, written, append_holding before (readable entry mem_cons_self).encodes]
    have step : restoreEntry entry store = (.ok (), { store with writer := .holding (before ++ [entry]) }) :=
      bind_of_ok appended
    have rest := @ih { store with writer := .holding (before ++ [entry]) } (before ++ [entry])
      (fun entry member => readable entry (mem_cons_of_mem _ member)) rfl
    rw [append_assoc, singleton_append] at rest
    exact (bind_of_ok step).trans rest

/-- What the log of a directory holds before and after it is recovered. -/
inductive Log : Option Bytes → List Entry → Option Bytes → Prop where
  | absent : Log none [] none
  | empty : Log (some []) [] (some [])
  | frames {entries : List Entry} {rest : Bytes} (incomplete : IncompleteFrame rest) :
      Log (some (walPrefix ++ (entries.flatMap frame ++ rest))) entries
        (some (walPrefix ++ entries.flatMap frame))

/-- The entries of the log that no block holds. -/
def unsealed (blocks : List Block) (entries : List Entry) : List Entry :=
  entries.filter fun entry => entry.id ∉ (blocks.flatMap Block.entries).map (·.id)

def withRecovered (entries : List Entry) (files : Files FileName) (store : SegmentStore) : SegmentStore :=
  { store with
    dir := .ofFiles files
    writer := .holding entries
    wal := if entries.isEmpty then store.wal else some [] }

/-- No file but the log differs. -/
abbrev LogOnly (files after : Files FileName) : Prop :=
  ∀ name, name ≠ .wal → after.lookup name = files.lookup name

theorem withRecovered_nil (reliable : store.dir = .ofFiles files) (fresh : store.writer = .new) :
    store.withRecovered [] files = store := by
  rw [withRecovered, ← reliable, SegmentWriter.holding_nil, ← fresh]
  rfl

theorem truncateWal_front (reliable : store.dir = .ofFiles files) {front rest : Bytes}
    (present : files.lookup .wal = some (front ++ rest)) :
    ∃ after, truncateWal front.length (front ++ rest).length store =
        (.ok (), { store with dir := .ofFiles after }) ∧
      after.lookup .wal = some front ∧ LogOnly files after := by
  unfold truncateWal
  cases rest with
  | nil =>
    rw [append_nil] at present ⊢
    refine ⟨files, ?_, present, fun _ _ => rfl⟩
    rw [if_neg (Nat.lt_irrefl _), ← reliable]
    rfl
  | cons byte rest =>
    have shorter : front.length < (front ++ byte :: rest).length := by
      rw [length_append, length_cons]
      omega
    have ran : setLen .wal front.length store.dir = _ :=
      reliable ▸ setLen_ofFiles present front.length
    rw [if_pos shorter]
    refine ⟨_, disk_of_ok ran, ?_, fun name other => AList.lookup_insert_ne other⟩
    rw [AList.lookup_insert, take_left, Nat.sub_eq_zero_of_le shorter.le, replicate_zero,
      append_nil]

theorem reopenWal_holding (reliable : store.dir = .ofFiles files) {content : Bytes}
    (present : files.lookup .wal = some content) {entries : List Entry}
    (written : store.writer = .holding entries) :
    reopenWal store = (.ok (), { store with wal := if entries.isEmpty then store.wal else some [] }) := by
  have indexed : store.writer.index.isEmpty = entries.isEmpty := by
    rw [written, Bool.eq_iff_iff, isEmpty_iff_length_eq_zero, isEmpty_iff_length_eq_zero,
      SegmentWriter.length_index_holding]
  rw [reopenWal, get_bind, indexed]
  cases entries with
  | nil => rfl
  | cons entry entries =>
    exact bind_of_ok (disk_stays reliable (openFile_ofFiles present))

theorem Finds.congr {archived : List ArchiveRecord} {files other : Files FileName} {block : Block}
    (finds : Finds host archived files block)
    (same : other.lookup (.segment block.id) = files.lookup (.segment block.id)) :
    Finds host archived other block := by
  unfold Finds at finds ⊢
  rwa [same]

/-- Nothing but the log has changed. -/
theorem Serves.logged {after : Files FileName} (serves : Serves host files blocks store)
    (others : LogOnly files after) {next : SegmentStore}
    (reliable : next.dir = .ofFiles after) (sealed : next.sealed = store.sealed)
    (archived : next.archived = store.archived) : Serves host after blocks next where
  lawful := serves.lawful
  reliable
  describes := sealed ▸ serves.describes
  valid := serves.valid
  finds block member := archived ▸ (serves.finds block member).congr (others _ (by simp))

theorem Serves.recovered {after : Files FileName} (serves : Serves host files blocks store)
    (others : LogOnly files after) (entries : List Entry) :
    Serves host after blocks (store.withRecovered entries after) :=
  serves.logged others rfl rfl rfl

section Log

variable {entries : List Entry} {rest : Bytes} (serves : Serves host files blocks store)
  (fresh : store.writer = .new) (incomplete : IncompleteFrame rest)
  (present : files.lookup .wal = some (walPrefix ++ (entries.flatMap frame ++ rest)))

include serves fresh incomplete present

theorem replayWal_encoded (encodes : Encoded entries) :
    ∃ after, replayWal host (walPrefix ++ (entries.flatMap frame ++ rest)) store = (do
        let recovered ← ofExcept ((entries.mapM (reread host.blake3)).map (unsealed blocks))
        recovered.forM restoreEntry
        reopenWal) { store with dir := .ofFiles after } ∧
      after.lookup .wal = some (walPrefix ++ entries.flatMap frame) ∧ LogOnly files after := by
  have stop := lastCompleteFrameEnd_frames encodes incomplete
  rw [← append_assoc] at present
  obtain ⟨after, cut, log, others⟩ := truncateWal_front serves.reliable present
  have served : Serves host after blocks { store with dir := .ofFiles after } :=
    serves.logged others rfl rfl rfl
  have persisted := served.entries (show _ = SegmentWriter.holding [] from fresh) (forall_mem_nil _)
  rw [append_nil] at persisted
  refine ⟨after, ?_, log, others⟩
  rw [replayWal, stop]
  rw [append_assoc] at cut
  refine (bind_of_ok cut).trans ?_
  rw [checkWalPrefix_append, ofExcept_ok_bind]
  refine (bind_of_ok persisted).trans ?_
  rw [unsealedEntries_encoded encodes]
  rfl

theorem replayWal_frames (readable : ∀ entry ∈ entries, entry.Readable host.blake3) :
    ∃ after, replayWal host (walPrefix ++ (entries.flatMap frame ++ rest)) store =
        (.ok (), store.withRecovered (unsealed blocks entries) after) ∧
      after.lookup .wal = some (walPrefix ++ entries.flatMap frame) ∧ LogOnly files after := by
  obtain ⟨after, replayed, log, others⟩ := replayWal_encoded serves fresh incomplete present
    fun entry member => (readable entry member).encodes
  let opened : SegmentStore := { store with dir := .ofFiles after }
  have restored : (unsealed blocks entries).forM restoreEntry opened =
      (.ok (), { opened with writer := .holding ([] ++ unsealed blocks entries) }) :=
    forM_restoreEntry _ (fun entry member => readable entry (mem_of_mem_filter member)) fresh
  rw [nil_append] at restored
  have reopened := @reopenWal_holding { opened with writer := .holding (unsealed blocks entries) }
    after rfl _ log _ rfl
  refine ⟨after, replayed.trans ?_, log, others⟩
  rw [mapM_reread readable]
  exact (bind_of_ok restored).trans reopened

end Log

theorem recoverWal_of_log (serves : Serves host files blocks store)
    (fresh : store.writer = .new) {content : Option Bytes}
    (log : Log (files.lookup .wal) entries content)
    (readable : ∀ entry ∈ entries, entry.Readable host.blake3) :
    ∃ after, recoverWal host store = (.ok (), store.withRecovered (unsealed blocks entries) after) ∧
      after.lookup .wal = content ∧ LogOnly files after := by
  rw [recoverWal, bind_of_ok (onDir_stays serves.reliable (isFile_ofFiles files .wal))]
  generalize present : files.lookup .wal = found at log
  cases log with
  | absent =>
    refine ⟨files, ?_, present, fun _ _ => rfl⟩
    rw [unsealed, filter_nil, withRecovered_nil serves.reliable fresh]
    rfl
  | empty =>
    refine ⟨files, ?_, present, fun _ _ => rfl⟩
    rw [unsealed, filter_nil, withRecovered_nil serves.reliable fresh, Option.isSome_some, if_pos rfl,
      bind_of_ok (disk_read serves.reliable present)]
    rfl
  | @frames _ rest incomplete =>
    have nonempty : (walPrefix ++ (entries.flatMap frame ++ rest)).isEmpty = false := rfl
    rw [Option.isSome_some, if_pos rfl, bind_of_ok (disk_read serves.reliable present), nonempty]
    exact replayWal_frames serves fresh incomplete present readable

/-! ## Loading -/

theorem forM_removeTemporary (names : List FileName) (files : Files FileName) :
    ∃ after, names.forM removeTemporary (.ofFiles files) = (.ok (), .ofFiles after) ∧
      ∀ name, after.lookup name =
        if name ∈ names ∧ name.isTemporary then none else files.lookup name := by
  induction names generalizing files with
  | nil => exact ⟨files, rfl, fun name => by simp⟩
  | cons first names ih =>
    by_cases temporary : first.isTemporary
    · obtain ⟨_, removed, ran, gone, _⟩ := remove_ofFiles files first
      obtain ⟨after, rest, lookups⟩ := ih removed
      have step : removeTemporary first (.ofFiles files) = (.ok (), .ofFiles removed) := by
        rw [removeTemporary, if_pos temporary, ignore, ran]
      refine ⟨after, (bind_of_ok step).trans rest, fun name => ?_⟩
      rw [lookups, gone]
      simp only [mem_cons]
      by_cases same : name = first
      · simp [same, temporary]
      · simp [same]
    · obtain ⟨after, rest, lookups⟩ := ih files
      have step : removeTemporary first (.ofFiles files) = (.ok (), .ofFiles files) := by
        rw [removeTemporary, if_neg temporary]
        rfl
      refine ⟨after, (bind_of_ok step).trans rest, fun name => ?_⟩
      rw [lookups]
      simp only [mem_cons]
      by_cases same : name = first
      · simp [same, temporary]
      · simp [same]

/-- The directory without its temporary files. -/
def Cleaned (files clean : Files FileName) : Prop :=
  ∀ name, clean.lookup name = if name.isTemporary then none else files.lookup name

theorem Cleaned.kept {clean : Files FileName} (cleaned : Cleaned files clean) {name : FileName}
    (permanent : name.isTemporary = false) : clean.lookup name = files.lookup name := by
  rw [cleaned, permanent]
  rfl

theorem recoverTempFiles_eq (reliable : store.dir = .ofFiles files) :
    ∃ after, recoverTempFiles store = (.ok (), { store with dir := .ofFiles after }) ∧ Cleaned files after := by
  obtain ⟨after, ran, lookups⟩ := forM_removeTemporary files.keys files
  refine ⟨after, ?_, fun name => ?_⟩
  · have cleaned : (do
        let names ← readDir
        names.forM removeTemporary) store.dir = (.ok (), ofFiles after) := by
      rw [reliable]
      exact (bind_of_ok (readDir_ofFiles files)).trans ran
    rw [recoverTempFiles, ignore, disk_of_ok cleaned]
  · rw [lookups]
    by_cases listed : name ∈ files.keys
    · simp [listed]
    · simp [listed, AList.lookup_eq_none.mpr (AList.mem_keys.not.mpr listed)]

end SegmentStore

theorem Layout.congr {other : Files FileName} (layout : Layout host files blocks records)
    (archive : other.lookup .archive = files.lookup .archive)
    (segments : ∀ id, other.lookup (.segment id) = files.lookup (.segment id)) :
    Layout host other blocks records where
  ascending := layout.ascending
  archive := by
    have loaded := layout.archive
    unfold ArchiveStore.loaded at loaded ⊢
    rwa [archive]
  archived := layout.archived
  loose block member := by
    rw [segments]
    exact layout.loose block member
  known id found := by
    rw [segments] at found
    exact layout.known id found

theorem Layout.cleaned {clean : Files FileName} (layout : Layout host files blocks records)
    (cleaned : Cleaned files clean) : Layout host clean blocks records :=
  layout.congr (cleaned.kept rfl) fun _ => cleaned.kept rfl

theorem Layout.snoc {after : Files FileName} (layout : Layout host files blocks records) {block : Block}
    (above : ∀ earlier ∈ blocks, earlier.id < block.id)
    (archive : after.lookup .archive = files.lookup .archive)
    (segments : ∀ id, after.lookup (.segment id) =
      if id = block.id then some (block.file host) else files.lookup (.segment id)) :
    Layout host after (blocks ++ [block]) records where
  ascending := pairwise_append.mpr ⟨layout.ascending, pairwise_singleton _ _,
    fun earlier member last same => mem_singleton.mp same ▸ above earlier member⟩
  archive := by
    have loaded := layout.archive
    unfold ArchiveStore.loaded at loaded ⊢
    rwa [archive]
  archived record listed := by
    obtain ⟨kept, member, same⟩ := layout.archived record listed
    exact ⟨kept, mem_append_left _ member, same⟩
  loose kept member := by
    obtain earlier | last := mem_append.mp member
    · rw [segments, if_neg (above kept earlier).ne]
      exact layout.loose kept earlier
    · cases mem_singleton.mp last
      exact .inr (by rw [segments, if_pos rfl])
  known id found := by
    rw [map_append, mem_append]
    by_cases last : id = block.id
    · exact .inr (mem_singleton.mpr last)
    · rw [segments, if_neg last] at found
      exact .inl (layout.known id found)

namespace SegmentStore

theorem load_of_outcome {retention : RetentionClass} {manifest : List ManifestEntry}
    (layout : Layout host files blocks records)
    (read : manifestIn files = .ok (retention, manifest))
    (listed : manifest = [] ∨ manifest.map (·.id) = blocks.map Block.id)
    {outcome : Except JournalError (List SealedSegment)}
    (loaded : ∀ clean, Layout host clean blocks records → ∀ store : SegmentStore, store.dir = .ofFiles clean →
      loadSegments host (ofList records) (flagsOf manifest) (blocks.map Block.id) store = (outcome, store)) :
    ∃ clean, Cleaned files clean ∧ match outcome with
      | .ok sealed => load host (.ofFiles files) = recoverWal host
          ((unread (.ofFiles clean)).withLoaded retention (blocks.map Block.id) records sealed)
      | .error fault => (load host (.ofFiles files)).1 = .error fault := by
  obtain ⟨clean, ran, cleaned⟩ := @recoverTempFiles_eq (unread (.ofFiles files)) files rfl
  have tidy := layout.cleaned cleaned
  have readClean : manifestIn clean = .ok (retention, manifest) := by
    unfold manifestIn at read ⊢
    rwa [cleaned.kept rfl]
  have listing : loadSealedSegments host (unread (.ofFiles clean)) = _ :=
    loadSealedSegments_of rfl tidy readClean listed (loaded clean tidy)
  have made : disk createDirAll (unread (.ofFiles files)) = (.ok (), unread (.ofFiles files)) := rfl
  have opened : load host (.ofFiles files) =
      (loadSealedSegments host >>= fun _ => recoverWal host) (unread (.ofFiles clean)) :=
    (bind_of_ok made).trans (bind_of_ok ran)
  refine ⟨clean, cleaned, ?_⟩
  cases outcome with
  | ok sealed => exact opened.trans (bind_of_ok listing)
  | error fault =>
    rw [opened, bind_of_error listing]

/-- A store as it is loaded from a directory with valid blocks. -/
structure Loaded (host : Host) (files : Files FileName) (blocks : List Block)
    (records : List ArchiveRecord) (retention : RetentionClass) (manifest : List ManifestEntry)
    (entries : List Entry) (content : Option Bytes) (store : SegmentStore) : Prop where
  reliable : store.dir = .ofFiles store.dir.files
  log : store.dir.files.lookup .wal = content
  kept : ∀ name, name ≠ .wal → store.dir.files.lookup name =
    if name.isTemporary then none else files.lookup name
  sealed : store.sealed = segmentsOf host manifest blocks
  archived : store.archived = (ofList records).entries
  retention : store.retention = effectiveRetention retention store.sealed store.archived
  next : store.nextSegmentId = nextIdAfter (blocks.map Block.id)
  writer : store.writer = .holding (unsealed blocks entries)
  wal : store.wal = if (unsealed blocks entries).isEmpty then none else some []

theorem serves_withLoaded {clean : Files FileName} (retention : RetentionClass)
    (manifest : List ManifestEntry) (ids : List UInt64) (lawful : host.Lawful) (layout : Layout host files blocks records)
    (valid : ∀ block ∈ blocks, block.Valid host)
    (finds : ∀ block ∈ blocks, Finds host (ofList records).entries clean block) :
    Serves host clean blocks ((unread (.ofFiles clean)).withLoaded retention ids records
      (segmentsOf host manifest blocks)) where
  lawful
  reliable := rfl
  describes := describes_segmentsOf host manifest blocks
  valid
  finds block member := by
    have archived := filter_archived layout (describes_segmentsOf host manifest blocks).ids
    rw [withLoaded, archived]
    exact finds block member

theorem load_valid {retention : RetentionClass} {manifest : List ManifestEntry}
    (lawful : host.Lawful) (layout : Layout host files blocks records)
    (valid : ∀ block ∈ blocks, block.Valid host)
    (read : manifestIn files = .ok (retention, manifest))
    (listed : manifest = [] ∨ manifest.map (·.id) = blocks.map Block.id) {content : Option Bytes} (log : Log (files.lookup .wal) entries content)
    (readable : ∀ entry ∈ entries, entry.Readable host.blake3) :
    ∃ store, load host (.ofFiles files) = (.ok (), store) ∧
      Loaded host files blocks records retention manifest entries content store := by
  obtain ⟨clean, cleaned, ran⟩ := load_of_outcome layout read listed
    fun clean tidy store reliable => loadSegments_valid lawful tidy valid store reliable
  have serves := serves_withLoaded retention manifest (blocks.map Block.id) lawful layout valid
    fun block member => (layout.cleaned cleaned).finds member
  rw [← cleaned.kept rfl] at log
  obtain ⟨after, recovered, logged, others⟩ := recoverWal_of_log serves rfl log readable
  refine ⟨_, ran.trans recovered, ?_⟩
  exact
    { reliable := rfl
      log := logged
      kept := fun name other => (others name other).trans (cleaned name)
      sealed := rfl
      archived := filter_archived layout (describes_segmentsOf host manifest blocks).ids
      retention := rfl
      next := rfl
      writer := rfl
      wal := rfl }

end SegmentStore

end Ldgr
