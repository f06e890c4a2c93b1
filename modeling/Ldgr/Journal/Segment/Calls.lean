import Ldgr.Journal.Segment.Durability

/-! The calls on an open store, with any entries and frames and whether they fail or not, and how an
invariant of the store is carried through them. -/

namespace Ldgr

open Base Format Action List

/-! ## Calls -/

inductive StoreCall where
  | operate (operation : Operation)
  | appendFrames (frames : List EntryFrame)
  | retain

namespace StoreCall

def perform (host : Host) : StoreCall → Action SegmentStore JournalError Unit
  | operate operation => operation.perform host
  | appendFrames frames => SegmentStore.appendFrames host frames
  | retain => SegmentStore.retain host

/-- The open writer once the call has added its frames. -/
def writer (store : SegmentStore) : StoreCall → SegmentWriter
  | operate (.append entry) => (SegmentWriter.append entry store.writer).2
  | operate (.appendSlice entries) => (SegmentWriter.appendSlice entries store.writer).2
  | operate (.appendFrames entries) =>
    match entries.mapM Entry.batchFrame with
    | .ok frames => store.writer.appendFrames frames
    | .error _ => store.writer
  | appendFrames frames => store.writer.appendFrames frames
  | operate .sealWriter | operate .writeManifest | operate (.setRetention _) | retain => store.writer

/-- The writer the call may seal is admitted, and its segment's id has a successor. -/
structure Within (admits : SegmentWriter → Prop) (store : SegmentStore) (call : StoreCall) : Prop where
  admitted : admits (call.writer store)
  room : store.nextSegmentId.toNat + 1 < 2 ^ 64

end StoreCall

namespace SegmentStore

variable {store : SegmentStore} {host : Host} {parts records : List ArchiveRecord}

def afterCalls (host : Host) (store : SegmentStore) (calls : List StoreCall) : SegmentStore :=
  calls.foldl (fun store call => (call.perform host store).2) store

/-- Every call keeps to the admitted writers in the store it is made on. -/
def Within (host : Host) (admits : SegmentWriter → Prop) : SegmentStore → List StoreCall → Prop
  | _, [] => True
  | store, call :: calls =>
    call.Within admits store ∧ Within host admits (call.perform host store).2 calls

/-! ## Where the segments are -/

/-- The store has its segments, each where it looks for them. -/
def Whole (host : Host) (store : SegmentStore) : Prop :=
  ∃ parts records, Intact host parts records store

/-- Nothing has happened to the segments and to the archive, and no call has started to fail. -/
structure Unmoved (store after : SegmentStore) : Prop where
  sealed : after.sealed = store.sealed
  archived : after.archived = store.archived
  retention : after.retention = store.retention
  next : after.nextSegmentId = store.nextSegmentId
  archive : after.dir.files.lookup .archive = store.dir.files.lookup .archive
  segments : ∀ id, after.dir.files.lookup (.segment id) = store.dir.files.lookup (.segment id)
  reliable : store.dir = .ofFiles store.dir.files → after.dir = .ofFiles after.dir.files

variable {after : SegmentStore}

theorem SameSealed.unmoved (same : SameSealed store after)
    (reliable : store.dir = .ofFiles store.dir.files → after.dir = .ofFiles after.dir.files) :
    Unmoved store after :=
  ⟨same.sealed, same.archived, same.retention, same.next, same.files _ (by simp),
    fun _ => same.files _ (by simp), reliable⟩

theorem Logging.unmoved (logging : Logging store after) : Unmoved store after :=
  logging.toSameSealed.unmoved logging.reliable

theorem Intact.withRetention (intact : Intact host parts records store) (retention : RetentionClass) :
    Intact host parts records { store with retention } :=
  { intact with }

theorem Intact.unmoved (intact : Intact host parts records store)
    (unmoved : Unmoved store after) : Intact host parts records after where
  reliable := unmoved.reliable intact.reliable
  ascending := intact.ascending
  listed := unmoved.sealed ▸ intact.listed
  below := unmoved.next ▸ intact.below
  short := intact.short
  archive := by
    rw [← intact.archive, ArchiveStore.loaded, unmoved.archive]
    rfl
  known := intact.known
  archived := unmoved.archived.trans intact.archived
  loose part member := (intact.loose part member).imp_right (unmoved.segments part.1).trans

/-! ## Sealing -/

theorem Intact.snoc (intact : Intact host parts records store) {bytes : Bytes}
    (short : bytes.length < 2 ^ 64) (room : store.nextSegmentId.toNat + 1 < 2 ^ 64)
    {segment : SealedSegment} (id : segment.id = store.nextSegmentId)
    (reliable : after.dir = .ofFiles after.dir.files)
    (sealed : after.sealed = store.sealed ++ [segment])
    (next : after.nextSegmentId = store.nextSegmentId + 1) (archived : after.archived = store.archived)
    (archive : after.dir.files.lookup .archive = store.dir.files.lookup .archive)
    (loose : ∀ id, after.dir.files.lookup (.segment id) =
      if id = store.nextSegmentId then some bytes else store.dir.files.lookup (.segment id)) :
    Intact host (parts ++ [(store.nextSegmentId, bytes)]) records after where
  reliable
  ascending := pairwise_append.mpr ⟨intact.ascending, pairwise_singleton _ _,
    fun part member other last => mem_singleton.mp last ▸ intact.below part member⟩
  listed := by rw [sealed, map_append, map_append, intact.listed, map_singleton, id]; rfl
  below := by
    have successor := Base.lt_add_one room
    rw [next]
    exact forall_mem_append.mpr ⟨fun part member => (intact.below part member).trans successor,
      forall_mem_singleton.mpr successor⟩
  short := forall_mem_append.mpr ⟨intact.short, forall_mem_singleton.mpr short⟩
  archive := by
    rw [← intact.archive, ArchiveStore.loaded, archive]
    rfl
  known record member := mem_append_left _ (intact.known record member)
  archived := archived.trans intact.archived
  loose := by
    refine forall_mem_append.mpr ⟨fun part member => ?_, forall_mem_singleton.mpr (.inr ?_)⟩
    · rw [loose, if_neg (intact.below part member).ne]
      exact intact.loose part member
    · rw [loose, if_pos rfl]

theorem sealWriter_eq (intact : Intact host parts records store) (nonempty : ¬store.writer.isEmpty = true)
    (short : (store.writer.sealedBytes host).length < 2 ^ 64)
    (room : store.nextSegmentId.toNat + 1 < 2 ^ 64) :
    ∃ after, sealWriter host store = (if store.retention ≠ .hot then retain host else pure ()) after ∧
      Intact host (parts ++ [(store.nextSegmentId, store.writer.sealedBytes host)]) records after ∧
      after.sealed = store.sealed ++ [store.writer.metadata host store.nextSegmentId] ∧
      after.writer = .new ∧ after.retention = store.retention ∧
      ∀ id ≠ store.nextSegmentId,
        after.dir.files.lookup (.segment id) = store.dir.files.lookup (.segment id) := by
  obtain ⟨after, ran, seals⟩ := @sealWriter_seals store host intact.reliable nonempty
  refine ⟨after, ran, ?_, seals.sealed, seals.writer, seals.retention,
    fun id apart => (seals.renamed.segment id).trans (if_neg apart)⟩
  exact intact.snoc short room rfl seals.reliable seals.sealed seals.next seals.archived
    (seals.renamed _ (by simp)) seals.renamed.segment

/-! ## Invariants -/

/-- What no call on a store undoes while its writers are admitted. -/
structure Lasting (host : Host) (admits : SegmentWriter → Prop) (invariant : SegmentStore → Prop) : Prop where
  whole : ∀ store, invariant store → Whole host store
  unmoved : ∀ store after, Unmoved store after → after.writer = store.writer → invariant store → invariant after
  written : ∀ store writer, admits writer → invariant store → invariant { store with writer }
  retained : ∀ store retention, invariant store → invariant (retain host { store with retention }).2
  sealed : ∀ store, invariant store → admits store.writer → store.nextSegmentId.toNat + 1 < 2 ^ 64 →
    invariant (sealWriter host store).2

section Lasting

variable {admits : SegmentWriter → Prop} {invariant : SegmentStore → Prop} {writer : SegmentWriter} {next : UInt64}

/-- The invariant, with the frames and the next id that a call has left so far. -/
structure Pending (invariant : SegmentStore → Prop) (writer : SegmentWriter) (next : UInt64)
    (store : SegmentStore) : Prop where
  holds : invariant store
  writer : store.writer = writer
  next : store.nextSegmentId = next

namespace Lasting

variable (lasting : Lasting host admits invariant)

include lasting

theorem logging {α : Type} {action : Action SegmentStore JournalError α} (logging : action.Relates Logging) :
    Action.Leads (Pending invariant writer next) action (Pending invariant writer next) :=
  fun store pending =>
    ⟨lasting.unmoved _ _ (logging store).unmoved (logging store).writer pending.holds,
      (logging store).writer.trans pending.writer, (logging store).next.trans pending.next⟩

theorem onWriter {α : Type} (action : Action SegmentWriter JournalError α)
    (admitted : admits (action writer).2) :
    Action.Leads (Pending invariant writer next) (onWriter action)
      (Pending invariant (action writer).2 next) := by
  rintro store ⟨holds, rfl, rfl⟩
  exact ⟨lasting.written store _ admitted holds, rfl, rfl⟩

theorem sealIfFull (admitted : admits writer) (room : next.toNat + 1 < 2 ^ 64) :
    Action.Leads (Pending invariant writer next) (sealIfFull host) invariant := by
  rintro store ⟨holds, rfl, rfl⟩
  rw [SegmentStore.sealIfFull, get_bind]
  split_ifs
  · exact lasting.sealed store holds admitted room
  · exact holds

theorem appendRange (action : Action SegmentWriter JournalError Unit)
    (admitted : admits (action writer).2) (room : next.toNat + 1 < 2 ^ 64) :
    Action.Leads (Pending invariant writer next) (do
      ensureWal
      let start := (← Action.get).writer.buffer.length
      SegmentStore.onWriter action
      writeWalRange start
      SegmentStore.sealIfFull host) invariant := by
  have stopped (writer : SegmentWriter) (store : SegmentStore) :
      Pending invariant writer next store → invariant store := Pending.holds
  refine (lasting.logging ensureWal_logging).bind (fun _ => ?_) (stopped _)
  refine Action.Leads.bind (fun _ pending => pending) (fun current => ?_) (stopped writer)
  refine (lasting.onWriter action admitted).bind (fun _ => ?_) (stopped _)
  refine Action.Leads.bind (lasting.logging ?_) (fun _ => lasting.sealIfFull admitted room) (stopped _)
  exact Action.Relates.bind relates_get fun _ => writeWal_logging _

theorem append (entry : Entry) (admitted : admits (SegmentWriter.append entry writer).2)
    (room : next.toNat + 1 < 2 ^ 64) :
    Action.Leads (Pending invariant writer next) (append host entry) invariant := by
  have stopped (writer : SegmentWriter) (store : SegmentStore) :
      Pending invariant writer next store → invariant store := Pending.holds
  refine (lasting.logging ensureWal_logging).bind (fun _ => ?_) (stopped _)
  refine (lasting.onWriter _ admitted).bind (fun frame => ?_) (stopped _)
  exact (lasting.logging (writeWal_logging frame)).bind (fun _ => lasting.sealIfFull admitted room) (stopped _)

theorem writeManifest : writeManifest.Relates (Action.Carries invariant) := by
  intro store holds
  obtain ⟨parts, records, intact⟩ := lasting.whole store holds
  obtain ⟨files, written, _, replaced⟩ := writeManifest_eq intact.reliable intact.few
  have others (name : FileName) (other : name ≠ .manifest) (temporary : name ≠ .manifestTmp) :
      files.lookup name = store.dir.files.lookup name := by
    rw [replaced, if_neg other, if_neg temporary]
  rw [written]
  exact lasting.unmoved store _ ⟨rfl, rfl, rfl, rfl, others _ (by simp) (by simp),
    fun _ => others _ (by simp) (by simp), fun _ => rfl⟩ rfl holds

/-- A call keeps the invariant, whatever it does and whether it fails. -/
theorem perform (holds : invariant store) {call : StoreCall} (within : call.Within admits store) :
    invariant (call.perform host store).2 := by
  have start : Pending invariant store.writer store.nextSegmentId store := ⟨holds, rfl, rfl⟩
  obtain ⟨admitted, room⟩ := within
  have frames (list : List EntryFrame) (admitted : admits (store.writer.appendFrames list)) :
      invariant (appendFrames host list store).2 := by
    unfold appendFrames
    split_ifs
    · exact holds
    · exact lasting.appendRange (Action.modify (SegmentWriter.appendFrames list)) admitted room store start
  cases call with
  | retain => exact lasting.retained store store.retention holds
  | appendFrames list => exact frames list admitted
  | operate operation =>
    cases operation with
    | append entry => exact lasting.append entry admitted room store start
    | appendSlice entries =>
      show invariant (appendSlice host entries store).2
      unfold appendSlice
      split_ifs
      · exact holds
      · exact lasting.appendRange (SegmentWriter.appendSlice entries) admitted room store start
    | appendFrames entries =>
      show invariant ((do
        let frames ← ofExcept (entries.mapM Entry.batchFrame)
        SegmentStore.appendFrames host frames) store).2
      rw [StoreCall.writer] at admitted
      cases mapped : entries.mapM Entry.batchFrame with
      | error fault => exact holds
      | ok list =>
        rw [mapped] at admitted
        exact frames list admitted
    | sealWriter => exact lasting.sealed store holds admitted room
    | writeManifest => exact lasting.writeManifest store holds
    | setRetention retention => exact lasting.retained store retention holds

theorem afterCalls (holds : invariant store) {calls : List StoreCall}
    (within : Within host admits store calls) : invariant (afterCalls host store calls) := by
  induction calls generalizing store with
  | nil => exact holds
  | cons call calls ih => exact ih (lasting.perform holds within.1) within.2

end Lasting

end Lasting

end SegmentStore

end Ldgr
