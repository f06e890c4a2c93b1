import Ldgr.Journal.Persistent
import Ldgr.Journal.Segment.Durability

/-! A fork has the blocks of its parent, all of them loose files, and none of their flags. -/

namespace Ldgr

open Base Format SegmentStore Action Directory List

namespace SegmentStore

variable {store : SegmentStore} {host : Host} {blocks : List Block} {records : List ArchiveRecord}
  {tail : List Entry}

theorem forM_append_short {entries : List Entry} (keeps : Keeps host blocks records tail store)
    (readable : ∀ entry ∈ entries, entry.Readable host.blake3)
    (short : ((tail ++ entries).flatMap Entry.frame).length < segmentTargetSize) :
    ∃ after, entries.forM (append host) store = (.ok (), after) ∧
      Keeps host blocks records (tail ++ entries) after ∧ SameSealed store after := by
  induction entries generalizing store tail with
  | nil =>
    rw [append_nil]
    exact ⟨store, rfl, keeps, ⟨rfl, rfl, rfl, rfl, fun _ _ => rfl⟩⟩
  | cons entry entries ih =>
    obtain ⟨between, ran, kept, same⟩ := append_eq keeps (readable entry mem_cons_self)
    rw [append_cons] at short ⊢
    have unfilled : ¬between.writer.shouldSeal := by
      have within := short
      rw [flatMap_append, length_append] at within
      rw [kept.written, SegmentWriter.shouldSeal, decide_eq_true_eq]
      exact Nat.not_le.mpr (Nat.lt_of_le_of_lt (Nat.le_add_right _ _) within)
    have held : append host entry store = (.ok (), between) := by
      rw [ran, sealIfFull, get_bind, if_neg unfilled]
      rfl
    obtain ⟨after, rest, final, further⟩ :=
      ih kept (fun other member => readable other (mem_cons_of_mem _ member)) short
    exact ⟨after, (bind_of_ok held).trans rest, final, same.trans further⟩

end SegmentStore

theorem SnapshotStore.new_frame (blake3 : Bytes → EntryHash) (files : Files FileName) :
    ∃ outcome after, SnapshotStore.new blake3 (.ofFiles files) = (outcome, .ofFiles after) ∧
      ∀ name, name ≠ .snapshots → after.lookup name = files.lookup name := by
  have made : mapError snapshotIo createDirAll (.ofFiles files : Disk) = (.ok (), .ofFiles files) := rfl
  have asked : isFile .snapshots (.ofFiles files : Disk) =
      ((.ok (files.lookup .snapshots).isSome : Except JournalError Bool), .ofFiles files) := rfl
  rw [SnapshotStore.new, bind_of_ok made, bind_of_ok asked]
  cases found : files.lookup .snapshots with
  | some content =>
    have opened : mapError snapshotIo (openFile .snapshots) (.ofFiles files : Disk) =
        (.ok (), .ofFiles files) := mapError_eq_ok.mpr (openFile_ofFiles found)
    have read : mapError snapshotIo (Directory.read .snapshots) (.ofFiles files : Disk) =
        (.ok content, .ofFiles files) := mapError_eq_ok.mpr (read_ofFiles found)
    rw [Option.isSome_some, if_pos rfl, bind_of_ok opened, bind_of_ok read]
    split_ifs
    · exact ⟨_, files, rfl, fun _ _ => rfl⟩
    · cases checked : checkSnapshotHeader content with
      | ok _ => exact ⟨_, files, ofExcept_ok_bind .., fun _ _ => rfl⟩
      | error fault => exact ⟨_, files, ofExcept_error_bind .., fun _ _ => rfl⟩
  | none =>
    rw [Option.isSome_none, if_neg Bool.false_ne_true]
    have written (files : Files FileName) {content : Bytes} (bytes : Bytes) :=
      append_ofFiles (AList.lookup_insert (a := FileName.snapshots) (b := content) files) bytes
    refine ⟨_, _, bind_of_ok (mapError_eq_ok.mpr ((bind_of_ok
      (create_ofFiles files .snapshots)).trans ((bind_of_ok (written ..)).trans
        ((bind_of_ok (written ..)).trans (written ..))))), fun name other => ?_⟩
    simp only [AList.lookup_insert_ne other]

namespace PersistentJournal

variable {parent : PersistentJournal} {host : Host} {blocks : List Block}
  {records : List ArchiveRecord} {tail : List Entry}

def unshared (parent : PersistentJournal) : List Entry :=
  parent.journal.entries.drop (parent.store.sealed.map SealedSegment.entryCount).sum.toNat

theorem linkOrCopy_ofFiles (name : FileName) (bytes : Bytes) (files : Files FileName) :
    linkOrCopy name bytes (.ofFiles files) = (.ok (), .ofFiles (files.insert name bytes)) := by
  by_cases present : (files.lookup name).isSome
  · simp [linkOrCopy, call, ofFiles, called, present]
  · simp [linkOrCopy, call, ofFiles, called, present]

theorem shareSegment_of_finds {files others : Files FileName} {block : Block}
    (reliable : parent.store.dir = .ofFiles files)
    (finds : Finds host parent.store.archived files block) (flagged : Bool) :
    ∃ after, shareSegment parent.store (block.segment host flagged) (.ofFiles others) =
        (.ok (), .ofFiles after) ∧
      after.lookup (.segment block.id) = some (block.file host) ∧
      ∀ name, name ≠ .segment block.id → name ≠ .segmentTmp block.id →
        after.lookup name = others.lookup name := by
  unfold shareSegment
  obtain archived | ⟨absent, loose⟩ := finds
  · obtain ⟨after, ran, replaced⟩ := replace_ofFiles others (.segmentTmp block.id)
      (.segment block.id) (block.file host)
    refine ⟨after, ?_, ?_, fun name other temporary => ?_⟩
    · rw [show (block.segment host flagged).id = block.id from rfl, archived]
      exact mapError_eq_ok.mpr ran
    · rw [replaced, if_pos rfl]
    · rw [replaced, if_neg other, if_neg temporary]
  · refine ⟨_, ?_, AList.lookup_insert _, fun name other _ => AList.lookup_insert_ne other⟩
    rw [show (block.segment host flagged).id = block.id from rfl, absent, reliable]
    simp only [ofFiles, loose]
    exact mapError_eq_ok.mpr (linkOrCopy_ofFiles ..)

theorem forM_shareSegment {files others : Files FileName} {sealed : List SealedSegment}
    (reliable : parent.store.dir = .ofFiles files) (describes : Describes host blocks sealed)
    (finds : ∀ block ∈ blocks, Finds host parent.store.archived files block)
    (nodup : (blocks.map Block.id).Nodup) :
    ∃ after, sealed.forM (shareSegment parent.store) (.ofFiles others) = (.ok (), .ofFiles after) ∧
      (∀ block ∈ blocks, after.lookup (.segment block.id) = some (block.file host)) ∧
      ∀ name, (∀ block ∈ blocks, name ≠ .segment block.id ∧ name ≠ .segmentTmp block.id) →
        after.lookup name = others.lookup name := by
  induction describes generalizing others with
  | nil => exact ⟨others, rfl, forall_mem_nil _, fun _ _ => rfl⟩
  | @cons block segment blocks sealed same _ ih =>
    obtain ⟨between, shared, found, kept⟩ := @shareSegment_of_finds _ _ _ others _ reliable
      (finds block mem_cons_self) segment.containsFaultRelevant
    rw [← same] at shared
    obtain ⟨new, distinct⟩ := nodup_cons.mp nodup
    obtain ⟨after, rest, each, unchanged⟩ := @ih between
      (fun block member => finds block (mem_cons_of_mem _ member)) distinct
    refine ⟨after, (bind_of_ok shared).trans rest, fun other member => ?_, fun name others => ?_⟩
    · rcases mem_cons.mp member with rfl | later
      · rw [unchanged, found]
        refine fun block later => ⟨fun equal => new ?_, by simp⟩
        rw [FileName.segment.inj equal]
        exact mem_map_of_mem later
      · exact each other later
    · obtain ⟨other, temporary⟩ := others block mem_cons_self
      rw [unchanged name fun block member => others block (mem_cons_of_mem _ member),
        kept name other temporary]

/-- A fork keeps the parent's blocks and holds the rest in its writer; its manifest lists every block,
with no flag. -/
theorem fork_consistent (lawful : host.Lawful) (keeps : Keeps host blocks records tail parent.store)
    (readable : ∀ entry ∈ parent.unshared, entry.Readable host.blake3)
    (short : (parent.unshared.flatMap Entry.frame).length < segmentTargetSize)
    {child : PersistentJournal} {dir : Disk} (ran : fork host parent (.ofFiles ∅) = (.ok child, dir)) :
    Consistent host blocks [] parent.unshared child.store ∧ child.store.sealed = segmentsOf host [] blocks := by
  have finds : ∀ block ∈ blocks, Finds host parent.store.archived parent.store.dir.files block :=
    fun block member => by
      rw [keeps.archived]
      exact keeps.layout.finds member
  obtain ⟨files, shared, each, others⟩ := @forM_shareSegment parent host blocks _ ∅ _ keeps.reliable
    keeps.describes finds keeps.layout.ids_nodup
  have absent (name : FileName)
      (other : ∀ block ∈ blocks, name ≠ .segment block.id ∧ name ≠ .segmentTmp block.id) :
      files.lookup name = none := others name other
  have layout : Layout host files blocks [] :=
    { ascending := keeps.layout.ascending
      archive := by
        unfold ArchiveStore.loaded
        rw [absent .archive fun _ _ => ⟨by simp, by simp⟩]
      archived := forall_mem_nil _
      loose := fun block member => .inr (each block member)
      known := fun id found => by
        by_contra unknown
        rw [absent (.segment id) fun block member => ⟨fun equal => unknown ?_, by simp⟩] at found
        · cases found
        · rw [FileName.segment.inj equal]
          exact mem_map_of_mem member }
  have read : manifestIn files = .ok (.hot, []) := by
    rw [manifestIn, absent .manifest fun _ _ => ⟨by simp, by simp⟩]
  have log : Log (files.lookup .wal) [] none :=
    (absent .wal fun _ _ => ⟨by simp, by simp⟩) ▸ .absent
  obtain ⟨opened, loaded, facts⟩ := load_valid lawful layout keeps.valid read (.inl rfl) log
    (forall_mem_nil _)
  have kept := facts.keeps layout keeps.valid keeps.room log (forall_mem_nil _)
  obtain ⟨held, appended, holds, same⟩ := forM_append_short kept readable short
  obtain ⟨listed, written, final, sealed, _, _, manifest⟩ := writeManifest_keeps holds
  obtain ⟨outcome, after, snapped, unchanged⟩ := SnapshotStore.new_frame host.blake3 listed.dir.files
  rw [← final.reliable] at snapped
  have made : onDir (mapError segmentIo createDirAll) (unread (.ofFiles ∅)) =
      (.ok (), unread (.ofFiles ∅)) := rfl
  have parts : forkParts host parent (unread (.ofFiles ∅)) = _ :=
    (bind_of_ok made).trans ((bind_of_ok (onDir_of shared)).trans
      ((bind_of_ok loaded).trans ((bind_of_ok appended).trans
        (bind_of_ok written))))
  rw [fork, build, parts] at ran
  have store : child.store = { listed with dir := .ofFiles after } := by
    cases outcome with
    | error fault =>
      rw [bind_of_error (onDir_of snapped)] at ran
      cases ran
    | ok snapshots =>
      rw [bind_of_ok (onDir_of snapped)] at ran
      cases ran
      rfl
  rw [store]
  have manifests : manifestIn after = manifestIn listed.dir.files :=
    manifestIn_congr (unchanged _ (by simp))
  refine ⟨{ final.withFiles (unchanged _ (by simp)) (fun id => unchanged _ (by simp))
    (unchanged _ (by simp)) with manifest := ⟨_, _, manifests.trans manifest, .inr ?_⟩ }, ?_⟩
  · rw [sealed]
  · rw [sealed, same.sealed, facts.sealed]

end PersistentJournal

end Ldgr
