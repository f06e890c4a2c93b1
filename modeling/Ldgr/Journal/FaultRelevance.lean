import Ldgr.Journal.Fork

/-! Which segments hold what retention must not archive: the flag lives in memory and in the manifest,
and is lost where neither is carried over. -/

namespace Ldgr

open Base Format List

def Block.FaultRelevant (block : Block) : Prop :=
  ∃ entry ∈ block.entries, kindIsFaultRelevant entry.data.kind = true

namespace SegmentStore

variable {store : SegmentStore} {host : Host} {blocks : List Block} {records : List ArchiveRecord}
  {tail : List Entry}

/-- Segments of fault relevant blocks are flagged. -/
def Flags (blocks : List Block) (sealed : List SealedSegment) : Prop :=
  List.Forall₂ (fun block segment => block.FaultRelevant → segment.containsFaultRelevant = true) blocks sealed

theorem Flags.append {others : List Block} {sealed more : List SealedSegment}
    (flags : Flags blocks sealed) (further : Flags others more) :
    Flags (blocks ++ others) (sealed ++ more) :=
  rel_append flags further

theorem flags_of_irrelevant {sealed : List SealedSegment} (flags : Flags blocks sealed)
    (irrelevant : ∀ segment ∈ sealed, segment.containsFaultRelevant = false)
    (manifest : List ManifestEntry) : Flags blocks (segmentsOf host manifest blocks) := by
  induction flags with
  | nil => exact .nil
  | @cons block segment blocks sealed flagged _ ih =>
    refine .cons (fun relevant => ?_)
      (ih fun segment member => irrelevant segment (mem_cons_of_mem _ member))
    have unflagged := irrelevant segment mem_cons_self
    rw [flagged relevant] at unflagged
    cases unflagged

theorem Advances.flags {entries held : List Entry} {after : SegmentStore} {grown : List Block}
    (advances : Advances host blocks entries store grown held after) (flags : Flags blocks store.sealed) :
    Flags grown after.sealed := by
  cases advances with
  | held sealed _ => rwa [sealed]
  | full sealed _ =>
    rw [sealed]
    refine flags.append (.cons (fun relevant => ?_) .nil)
    exact any_eq_true.mpr relevant

/-! ## Histories with forks -/

/-- Stores reached by sound operations, by reopening and by forking, where a store that is read again
without its flags has no fault relevant segment. -/
inductive Lineage (host : Host) : SegmentStore → Prop where
  | opened {store : SegmentStore}
      (ran : new host (.ofFiles ∅) = (.ok (), store) ∨ load host (.ofFiles ∅) = (.ok (), store)) :
      Lineage host store
  | performed {store after : SegmentStore} {operation : Operation} (lineage : Lineage host store)
      (sound : operation.Sound host store) (ran : operation.perform host store = (.ok (), after)) :
      Lineage host after
  | reopened {store after : SegmentStore} (lineage : Lineage host store)
      (carried : (∀ retention listed, manifestIn store.dir.files = .ok (retention, listed) →
          listed.map (·.id) = store.sealed.map (·.id)) ∨
        ∀ segment ∈ store.sealed, segment.containsFaultRelevant = false)
      (ran : load host store.close = (.ok (), after)) : Lineage host after
  | forked {parent child : PersistentJournal} {dir : Disk} (lineage : Lineage host parent.store)
      (irrelevant : ∀ segment ∈ parent.store.sealed, segment.containsFaultRelevant = false)
      (readable : ∀ entry ∈ parent.unshared, entry.Readable host.blake3)
      (short : (parent.unshared.flatMap Entry.frame).length < segmentTargetSize)
      (ran : parent.fork host (.ofFiles ∅) = (.ok child, dir)) : Lineage host child.store

theorem Lineage.flags (lawful : host.Lawful) (lineage : Lineage host store) :
    ∃ blocks records tail, Consistent host blocks records tail store ∧ Flags blocks store.sealed := by
  induction lineage with
  | @opened store ran =>
    have fresh : store = unread (.ofFiles ∅) :=
      ran.elim (fun made => (congrArg Prod.snd made).symm) fun made => (congrArg Prod.snd made).symm
    exact ⟨[], [], [], fresh ▸ consistent_empty host, fresh ▸ .nil⟩
  | performed _ sound ran ih =>
    obtain ⟨blocks, records, tail, consistent, flags⟩ := ih
    obtain ⟨final, grown, updated, held, performed, kept, advances, _⟩ :=
      perform_consistent consistent sound
    cases performed.symm.trans ran
    exact ⟨grown, updated, held, kept, advances.flags flags⟩
  | @reopened store _ _ carried ran ih =>
    obtain ⟨blocks, records, tail, consistent, flags⟩ := ih
    obtain ⟨final, loaded, kept, sealed, _⟩ := consistent.reopen lawful
    cases loaded.symm.trans ran
    refine ⟨blocks, records, _, kept, ?_⟩
    obtain ⟨retention, listed, manifest, all⟩ := consistent.manifest
    rw [(sealed retention listed manifest).1]
    rcases carried with carried | irrelevant
    · have every : listed = store.sealed.map SealedSegment.manifestEntry := by
        rcases all with rfl | every
        · have none := carried retention [] manifest
          rw [map_nil, eq_comm, map_eq_nil_iff] at none
          rw [none, map_nil]
        · exact every
      rw [every, segmentsOf_manifestEntry consistent.describes
        (consistent.describes.ids ▸ consistent.layout.ids_nodup)]
      exact flags
    · exact flags_of_irrelevant flags irrelevant listed
  | forked _ irrelevant readable short ran ih =>
    obtain ⟨blocks, records, tail, consistent, flags⟩ := ih
    obtain ⟨kept, sealed⟩ :=
      PersistentJournal.fork_consistent lawful consistent.toKeeps readable short ran
    exact ⟨blocks, [], _, kept, sealed ▸ flags_of_irrelevant flags irrelevant []⟩

/-- A fault relevant segment is flagged, and so stays a loose file under the warm class. -/
theorem Lineage.keeps_faultRelevant (lawful : host.Lawful) (lineage : Lineage host store) :
    ∀ segment ∈ store.sealed, ∀ entries, (segmentEntries host segment store).1 = .ok entries →
      (∃ entry ∈ entries, kindIsFaultRelevant entry.data.kind = true) →
      segment.containsFaultRelevant = true ∧ ∃ after, setRetention host .warm store = (.ok (), after) ∧
          (after.dir.files.lookup (.segment segment.id)).isSome := by
  intro segment member entries read relevant
  obtain ⟨blocks, records, tail, consistent, flags⟩ := lineage.flags lawful
  obtain ⟨index, found, rfl⟩ := getElem_of_mem member
  have paired : index < blocks.length := consistent.describes.length_eq ▸ found
  have described := consistent.describes.get paired found
  have flagged := flags.get paired found
  simp only [get_eq_getElem] at described flagged
  have listed : blocks[index] ∈ blocks := getElem_mem paired
  have finds : Finds host store.archived store.dir.files blocks[index] := by
    rw [consistent.archived]
    exact consistent.layout.finds listed
  rw [described, segmentEntries_of_finds lawful consistent.reliable (consistent.valid _ listed) finds] at read
  cases read
  have flag := flagged relevant
  refine ⟨flag, ?_⟩
  obtain ⟨after, _, ran, _, _, _, _, _, loose⟩ := retain_keeps (consistent.withRetention .warm)
  refine ⟨after, ran, loose _ member ?_⟩
  rw [shouldKeepLoose, flag, Bool.true_or]

/-- A partition that was set up. -/
def firstFault : Entry :=
  .standalone (.fault (.partition ⟨1⟩ ⟨2⟩ true))

theorem firstFault_readable : firstFault.Readable plainHost.blake3 :=
  Entry.standalone_readable ⟨nofun, nofun, nofun, nofun⟩ rfl

def faultSealed : SegmentStore :=
  (sealWriter plainHost (append plainHost firstFault (unread (.ofFiles ∅))).2).2

theorem faultSealed_lineage : Lineage plainHost faultSealed := by
  let appended := (append plainHost firstFault (unread (.ofFiles ∅))).2
  have short : (Operation.append firstFault).sealedBuffer (unread (.ofFiles ∅)) = none := by
    decide +kernel
  have appends : (Operation.append firstFault).Sound plainHost (unread (.ofFiles ∅)) :=
    { readable := forall_mem_singleton.mpr firstFault_readable
      fits := fun _ seals => nomatch short.symm.trans seals
      room := fun seals => by rw [short] at seals; cases seals
      listed := fun seals => by rw [short] at seals; cases seals }
  have fits : ∀ buffer ∈ Operation.sealWriter.sealedBuffer appended, plainHost.Fits buffer := by
    decide +kernel
  have seals : Operation.sealWriter.Sound plainHost appended :=
    { readable := forall_mem_nil _
      fits := fits
      room := fun _ => by decide +kernel
      listed := fun _ _ => ⟨.hot, rfl⟩ }
  exact .performed (.performed (.opened (.inl rfl)) appends rfl) seals rfl

theorem faultSealed_loose : faultSealed.sealed ≠ [] ∧ ∀ segment ∈ faultSealed.sealed, ∀ entries,
      (segmentEntries plainHost segment faultSealed).1 = .ok entries →
      (∃ entry ∈ entries, kindIsFaultRelevant entry.data.kind = true) →
      segment.containsFaultRelevant = true ∧
        ∃ after, setRetention plainHost .warm faultSealed = (.ok (), after) ∧
          (after.dir.files.lookup (.segment segment.id)).isSome :=
  ⟨by decide +kernel, Lineage.keeps_faultRelevant plainHost_lawful faultSealed_lineage⟩

/-- The flag of the sealed fault is gone once the store is loaded without a manifest, and a fork
loses it although its parent has written one. -/
theorem faultSealed_forgotten :
    let loaded := load plainHost faultSealed.close
    faultSealed.sealed.map (·.containsFaultRelevant) = [true] ∧ loaded.1 = .ok () ∧
      (loaded.2.sealed.map fun segment =>
        ((segmentEntries plainHost segment loaded.2).1.map (map (·.data.kind)),
          segment.containsFaultRelevant)) = [(.ok [.fault], false)] ∧
      let parent : PersistentJournal :=
        { journal := Journal.new, store := (writeManifest faultSealed).2,
          snapshots := SnapshotManager.new 1, snapshotStore := { position := 0, chain := checksum [] } }
      ((parent.fork plainHost (.ofFiles ∅)).1.map fun child =>
        child.store.sealed.map (·.containsFaultRelevant)) = .ok [false] := by
  decide +kernel

end SegmentStore

end Ldgr
