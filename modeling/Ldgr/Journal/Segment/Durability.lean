import Ldgr.Journal.Segment.Operations

/-! Entries survive dropping a store and loading its directory again. -/

namespace Ldgr

open Base Format List

namespace SegmentStore

variable {store : SegmentStore} {host : Host} {blocks : List Block} {records : List ArchiveRecord}
  {tail : List Entry}

theorem lt_nextIdAfter {ids : List UInt64} (ascending : ids.Pairwise (· < ·))
    (room : ∀ id ∈ ids, id.toNat + 1 < 2 ^ 64) : ∀ id ∈ ids, id < nextIdAfter ids := by
  intro id member
  obtain rfl | ⟨front, last, rfl⟩ := ids.eq_nil_or_concat'
  · cases member
  · have top : nextIdAfter (front ++ [last]) = last + 1 := by simp [nextIdAfter]
    have successor := Base.lt_add_one (room last (by simp))
    rw [top]
    obtain earlier | here := mem_append.mp member
    · exact ((pairwise_append.mp ascending).2.2 id earlier last mem_cons_self).trans successor
    · rw [mem_singleton.mp here]
      exact successor

/-! ## Flags -/

theorem flagOf_manifestEntry {sealed : List SealedSegment} (nodup : (sealed.map (·.id)).Nodup)
    {segment : SealedSegment} (member : segment ∈ sealed) :
    flagOf (sealed.map SealedSegment.manifestEntry) segment.id = segment.containsFaultRelevant := by
  have keyed : (sealed.map SealedSegment.manifestEntry).map (fun entry => (entry.id, entry.faultRelevant)) =
      sealed.map fun segment => (segment.id, segment.containsFaultRelevant) := by
    rw [map_map]
    rfl
  rw [flagOf, flagsOf, keyed]
  have present : ((SortedMap.ofList (sealed.map fun segment =>
      (segment.id, segment.containsFaultRelevant))).lookup segment.id).isSome := by
    rw [SortedMap.isSome_lookup_ofList, map_map]
    exact mem_map_of_mem member
  obtain ⟨flag, found⟩ := Option.isSome_iff_exists.mp present
  obtain ⟨other, listed, same⟩ := mem_map.mp (SortedMap.mem_of_lookup_ofList found)
  obtain ⟨sameId, rfl⟩ := Prod.mk.inj same
  rw [found, inj_on_of_nodup_map nodup member listed sameId.symm]
  rfl

theorem segmentsOf_manifestEntry {sealed : List SealedSegment}
    (describes : Describes host blocks sealed) (nodup : (sealed.map (·.id)).Nodup) :
    segmentsOf host (sealed.map SealedSegment.manifestEntry) blocks = sealed := by
  have flags : ∀ segment ∈ sealed, flagOf (sealed.map SealedSegment.manifestEntry) segment.id =
      segment.containsFaultRelevant := fun segment => flagOf_manifestEntry nodup
  generalize sealed.map SealedSegment.manifestEntry = manifest at flags
  clear nodup
  induction describes with
  | nil => rfl
  | @cons block segment blocks sealed same _ ih =>
    have sameId : segment.id = block.id := by rw [same]; rfl
    rw [segmentsOf, map_cons, ← segmentsOf,
      ih fun segment member => flags segment (mem_cons_of_mem _ member), ← sameId,
      flags segment mem_cons_self, ← same]

/-! ## Reopening -/

theorem unsealed_unsealed (blocks : List Block) (entries : List Entry) :
    unsealed blocks (unsealed blocks entries) = unsealed blocks entries :=
  filter_filter.trans (by simp only [Bool.and_self]; rfl)

theorem Loaded.keeps {files : Files FileName} {retention : RetentionClass}
    {manifest : List ManifestEntry} {entries : List Entry} {before content : Option Bytes}
    (loaded : Loaded host files blocks records retention manifest entries content store)
    (layout : Layout host files blocks records) (valid : ∀ block ∈ blocks, block.Valid host)
    (room : ∀ block ∈ blocks, block.id.toNat + 1 < 2 ^ 64) (log : Log before entries content)
    (readable : ∀ entry ∈ entries, entry.Readable host.blake3) :
    Keeps host blocks records (unsealed blocks entries) store where
  reliable := loaded.reliable
  layout := layout.congr (loaded.kept .archive (by simp)) fun id => loaded.kept (.segment id) (by simp)
  valid
  describes := loaded.sealed ▸ describes_segmentsOf host manifest blocks
  archived := loaded.archived
  below block member := by
    rw [loaded.next]
    refine lt_nextIdAfter (pairwise_map.mpr layout.ascending) (fun id listed => ?_) block.id
      (mem_map_of_mem member)
    obtain ⟨other, otherMember, rfl⟩ := mem_map.mp listed
    exact room other otherMember
  written := loaded.writer
  readable entry member := readable entry (mem_of_mem_filter member)
  logs := by
    refine ⟨entries, readable, (unsealed_unsealed blocks entries).symm, ?_⟩
    by_cases none : unsealed blocks entries = []
    · exact .inr ⟨by rw [loaded.wal, none]; rfl, none, content, loaded.log ▸ log.again⟩
    · have wal : store.wal = some [] := by
        rw [loaded.wal, if_neg (by simpa using none)]
      cases log with
      | absent | empty => exact absurd rfl none
      | frames _ => exact .inl ⟨[], _, wal, loaded.log, append_nil _⟩
  idle closed := by
    rw [loaded.wal] at closed
    split_ifs at closed with empty
    exact isEmpty_iff.mp empty

theorem Keeps.room (keeps : Keeps host blocks records tail store) :
    ∀ block ∈ blocks, block.id.toNat + 1 < 2 ^ 64 := by
  intro block member
  have below : block.id.toNat < store.nextSegmentId.toNat := keeps.below block member
  have bound := store.nextSegmentId.toNat_lt
  omega

/-- Loading what a dropped store leaves brings its blocks back, and those of its other entries that
no block holds. -/
theorem Consistent.reopen (lawful : host.Lawful) (consistent : Consistent host blocks records tail store) :
    ∃ after, load host store.close = (.ok (), after) ∧
      Consistent host blocks records (unsealed blocks tail) after ∧
      (∀ retention listed, manifestIn store.dir.files = .ok (retention, listed) →
        after.sealed = segmentsOf host listed blocks ∧
        after.retention = effectiveRetention retention after.sealed after.archived) ∧
      manifestIn after.dir.files = manifestIn store.dir.files := by
  obtain ⟨files, entries, content, closed, others, readable, agrees, log⟩ := consistent.toKeeps.close
  obtain ⟨retention, listed, read, all⟩ := consistent.manifest
  have layout := consistent.layout.congr (others .archive (by simp)) fun id => others (.segment id) (by simp)
  have same : manifestIn files = manifestIn store.dir.files := manifestIn_congr (others _ (by simp))
  have ids : listed = [] ∨ listed.map (·.id) = blocks.map Block.id := by
    refine all.imp_right fun every => ?_
    rw [every, map_map, ← consistent.describes.ids]
    rfl
  obtain ⟨after, ran, loaded⟩ := load_valid lawful layout consistent.valid (same.trans read) ids log readable
  have kept := loaded.keeps layout consistent.valid consistent.room log readable
  have manifest : manifestIn after.dir.files = manifestIn store.dir.files :=
    (manifestIn_congr (loaded.kept .manifest (by simp))).trans same
  rw [agrees] at kept
  refine ⟨after, closed ▸ ran, { kept with manifest := ⟨retention, listed, manifest.trans read, ?_⟩ },
    fun _ _ found => ?_, manifest⟩
  · refine all.imp_right fun every => ?_
    have nodup : (store.sealed.map (·.id)).Nodup :=
      consistent.describes.ids ▸ consistent.layout.ids_nodup
    rw [loaded.sealed, every, segmentsOf_manifestEntry consistent.describes nodup]
  · cases read.symm.trans found
    exact ⟨loaded.sealed, loaded.retention⟩

/-! ## Histories -/

def sealedEntries (host : Host) (store : SegmentStore) : Except JournalError (List Entry) :=
  (store.sealed.foldlM (collectEntries host) [] store).1

/-- The appended entries and the store after operations on a fresh directory, with the store dropped
and loaded in between any number of times. Each operation is sound and appends nothing under the id
of an entry sealed before. -/
inductive History (host : Host) : List Entry → SegmentStore → Prop where
  | opened {store : SegmentStore}
      (ran : new host (.ofFiles ∅) = (.ok (), store) ∨ load host (.ofFiles ∅) = (.ok (), store)) :
      History host [] store
  | performed {appended : List Entry} {store after : SegmentStore} {operation : Operation}
      (history : History host appended store) (sound : operation.Sound host store)
      (unsealed : ∀ sealed, sealedEntries host store = .ok sealed →
        ∀ entry ∈ operation.entries, entry.id ∉ sealed.map (·.id))
      (ran : operation.perform host store = (.ok (), after)) :
      History host (appended ++ operation.entries) after
  | reopened {appended : List Entry} {store after : SegmentStore} (history : History host appended store)
      (ran : load host store.close = (.ok (), after)) : History host appended after

theorem consistent_empty (host : Host) : Consistent host [] [] [] (unread (.ofFiles ∅)) where
  reliable := rfl
  layout := ⟨.nil, rfl, forall_mem_nil _, forall_mem_nil _, nofun⟩
  valid := forall_mem_nil _
  describes := .nil
  archived := rfl
  below := forall_mem_nil _
  written := rfl
  readable := forall_mem_nil _
  logs := ⟨[], forall_mem_nil _, rfl, .inr ⟨rfl, rfl, none, .absent⟩⟩
  idle _ := rfl
  manifest := ⟨.hot, [], rfl, .inl rfl⟩

theorem sealedEntries_eq (lawful : host.Lawful) (consistent : Consistent host blocks records tail store) :
    sealedEntries host store = .ok (blocks.flatMap Block.entries) := by
  have read := foldlM_collectEntries lawful consistent.reliable consistent.describes consistent.valid
    (fun block member => by rw [consistent.archived]; exact consistent.layout.finds member) []
  rw [sealedEntries, read, nil_append]

theorem unsealed_eq_self {entries : List Entry} : unsealed blocks entries = entries ↔
      ∀ entry ∈ entries, entry.id ∉ (blocks.flatMap Block.entries).map (·.id) := by
  rw [unsealed, filter_eq_self]
  simp only [decide_eq_true_eq]

theorem Consistent.performed (consistent : Consistent host blocks records tail store)
    (lawful : host.Lawful) (distinct : unsealed blocks tail = tail) {operation : Operation}
    (sound : operation.Sound host store)
    (new : ∀ sealed, sealedEntries host store = .ok sealed →
      ∀ entry ∈ operation.entries, entry.id ∉ sealed.map (·.id))
    {after : SegmentStore} (ran : operation.perform host store = (.ok (), after)) :
    ∃ grown updated held, Consistent host grown updated held after ∧ grown.flatMap Block.entries ++ held =
        blocks.flatMap Block.entries ++ tail ++ operation.entries ∧
      unsealed grown held = held ∧
      (operation.Writes → after.retention = store.retention ∧
        (store.retention = .hot → manifestIn after.dir.files = manifestIn store.dir.files)) := by
  obtain ⟨final, grown, updated, held, performed, kept, advances, unadministered⟩ :=
    perform_consistent consistent sound
  cases performed.symm.trans ran
  refine ⟨grown, updated, held, kept, by rw [advances.entries, append_assoc], ?_, unadministered⟩
  cases advances with
  | held _ _ =>
    refine (unsealed_append ..).trans ?_
    rw [distinct, unsealed_eq_self.mpr (new _ (sealedEntries_eq lawful consistent))]
  | full _ _ => rfl

theorem History.consistent (lawful : host.Lawful) {appended : List Entry}
    (history : History host appended store) :
    ∃ blocks records tail, Consistent host blocks records tail store ∧
      appended = blocks.flatMap Block.entries ++ tail ∧ unsealed blocks tail = tail := by
  induction history with
  | @opened store ran =>
    have fresh : store = unread (.ofFiles ∅) :=
      ran.elim (fun made => (congrArg Prod.snd made).symm) fun made => (congrArg Prod.snd made).symm
    exact ⟨[], [], [], fresh ▸ consistent_empty host, rfl, rfl⟩
  | @performed appended store after operation _ sound new ran ih =>
    obtain ⟨blocks, records, tail, consistent, rfl, distinct⟩ := ih
    obtain ⟨grown, updated, held, kept, entries, others, _⟩ :=
      consistent.performed lawful distinct sound new ran
    exact ⟨grown, updated, held, kept, entries.symm, others⟩
  | reopened _ ran ih =>
    obtain ⟨blocks, records, tail, consistent, rfl, distinct⟩ := ih
    obtain ⟨final, loaded, kept, _⟩ := consistent.reopen lawful
    cases loaded.symm.trans ran
    rw [distinct] at kept
    exact ⟨blocks, records, tail, kept, rfl, distinct⟩

/-- Dropping a store and loading its directory brings back exactly the appended entries, in order,
and the next segment gets an id that no segment file and no archive record has. -/
theorem History.durable (lawful : host.Lawful) {appended : List Entry} (history : History host appended store) :
    ∃ after, load host store.close = (.ok (), after) ∧ (entriesInAppendOrder host after).1 = .ok appended ∧
      (after.dir.files.lookup (.segment after.nextSegmentId)).isNone ∧
      ∀ archived, ArchiveStore.loaded host.blake3 after.dir.files = .ok archived →
        after.nextSegmentId ∉ archived.map Prod.fst := by
  obtain ⟨blocks, records, tail, consistent, rfl, distinct⟩ := history.consistent lawful
  obtain ⟨after, ran, kept, _⟩ := consistent.reopen lawful
  rw [distinct] at kept
  have fresh : after.nextSegmentId ∉ blocks.map Block.id := by
    intro listed
    obtain ⟨block, member, same⟩ := mem_map.mp listed
    exact absurd same (kept.below block member).ne
  refine ⟨after, ran, by rw [kept.entries lawful], ?_, fun archived loaded used => ?_⟩
  · rw [Option.isNone_iff_eq_none, ← Option.not_isSome_iff_eq_none]
    exact fun used => fresh (kept.layout.known _ used)
  · cases kept.layout.archive.symm.trans loaded
    obtain ⟨record, member, same⟩ := mem_map.mp used
    obtain ⟨block, listed, rfl⟩ := kept.layout.archived record member
    exact fresh (same ▸ mem_map_of_mem listed)

def firstSpawn : Entry :=
  .standalone (.spawn ⟨1⟩)

def secondSpawn : Entry :=
  .standalone (.spawn ⟨2⟩)

theorem firstSpawn_readable : firstSpawn.Readable plainHost.blake3 :=
  Entry.standalone_readable ⟨nofun, nofun, nofun, nofun⟩ rfl

theorem firstSpawn_durable :
    ∃ after, load plainHost (append plainHost firstSpawn (unread (.ofFiles ∅))).2.close = (.ok (), after) ∧
      (entriesInAppendOrder plainHost after).1 = .ok [firstSpawn] ∧
      (after.dir.files.lookup (.segment after.nextSegmentId)).isNone ∧
      ∀ archived, ArchiveStore.loaded plainHost.blake3 after.dir.files = .ok archived →
        after.nextSegmentId ∉ archived.map Prod.fst := by
  have short : (Operation.append firstSpawn).sealedBuffer (unread (.ofFiles ∅)) = none := by
    decide +kernel
  have sound : (Operation.append firstSpawn).Sound plainHost (unread (.ofFiles ∅)) :=
    { readable := forall_mem_singleton.mpr firstSpawn_readable
      fits := fun _ seals => nomatch short.symm.trans seals
      room := fun seals => by rw [short] at seals; cases seals
      listed := fun seals => by rw [short] at seals; cases seals }
  have history : History plainHost ([] ++ [firstSpawn])
      (append plainHost firstSpawn (unread (.ofFiles ∅))).2 := by
    refine .performed (.opened (.inl rfl)) sound (fun sealed read => ?_) rfl
    cases read
    exact fun _ _ => not_mem_nil
  exact History.durable plainHost_lawful history

/-- A segment sealed in the hot tier after the manifest was written is not in it, and so is neither
loaded nor safe from being overwritten. -/
theorem staleManifest_forgets :
    let operations : List Operation :=
      [.append firstSpawn, .sealWriter, .writeManifest, .append secondSpawn, .sealWriter]
    let ran := operations.forM (Operation.perform plainHost) (new plainHost (.ofFiles ∅)).2
    let loaded := load plainHost ran.2.close
    ran.1 = .ok () ∧ loaded.1 = .ok () ∧
      (entriesInAppendOrder plainHost loaded.2).1.map (List.map (·.id)) = .ok [firstSpawn.id] ∧
      (loaded.2.dir.files.lookup (.segment loaded.2.nextSegmentId)).isSome := by
  decide +kernel

end SegmentStore

end Ldgr
