import Ldgr.Journal.Segment.Durability

/-! Sealing may stop at any of its disk calls: what a later process loads, and what it can append and
seal from there on. -/

namespace Ldgr

open Base Format Directory Action List

namespace SegmentStore

variable {store : SegmentStore} {host : Host} {files : Files FileName} {blocks : List Block}
  {records : List ArchiveRecord} {tail : List Entry}

/-- The directory a later process finds when sealing stops after `count` calls. -/
def crashedSeal (host : Host) (store : SegmentStore) (count : Nat) : Disk :=
  (sealWriter host { store with dir := store.dir.stopAfter count }).2.dir.reopen

/-- The entries appended by operations that follow, none of them under the id of a sealed entry, and
the store after them. -/
inductive FollowUp (host : Host) (start : SegmentStore) : List Entry → SegmentStore → Prop where
  | start : FollowUp host start [] start
  | performed {appended : List Entry} {store after : SegmentStore} {operation : Operation}
      (before : FollowUp host start appended store) (writes : operation.Writes)
      (restorable : operation.Restorable host store)
      (unsealed : ∀ sealed, sealedEntries host store = .ok sealed →
        ∀ entry ∈ operation.entries, entry.id ∉ sealed.map (·.id))
      (ran : operation.perform host store = (.ok (), after)) :
      FollowUp host start (appended ++ operation.entries) after

/-- The directory loads with exactly `entries`, and whatever is appended and sealed from there on is
kept behind them, in the store and across the next load. -/
def Recovers (host : Host) (dir : Disk) (entries : List Entry) : Prop :=
  ∃ opened, load host dir = (.ok (), opened) ∧ (entriesInAppendOrder host opened).1 = .ok entries ∧
    ∀ more store, FollowUp host opened more store →
      (entriesInAppendOrder host store).1 = .ok (entries ++ more) ∧
      ∃ reopened, load host store.close = (.ok (), reopened) ∧
        (entriesInAppendOrder host reopened).1 = .ok (entries ++ more)

/-! ## Following up -/

/-- What a store without a manifest of its own keeps while it is appended to and sealed. -/
structure Unlisted (host : Host) (entries : List Entry) (store : SegmentStore) : Prop where
  consistent : ∃ blocks records tail, Consistent host blocks records tail store ∧
    blocks.flatMap Block.entries ++ tail = entries ∧ unsealed blocks tail = tail
  manifest : store.retention = .hot → ∃ retention, manifestIn store.dir.files = .ok (retention, [])

theorem FollowUp.unlisted (lawful : host.Lawful) {start : SegmentStore} {entries more : List Entry}
    (unlisted : Unlisted host entries start) (run : FollowUp host start more store) :
    Unlisted host (entries ++ more) store := by
  induction run with
  | start => rwa [append_nil]
  | performed _ writes restorable new ran ih =>
    obtain ⟨⟨blocks, records, tail, consistent, same, distinct⟩, manifest⟩ := ih
    obtain ⟨grown, updated, held, kept, appended, others, unadministered⟩ :=
      consistent.performed lawful distinct { restorable with listed := fun _ => manifest } new ran
    obtain ⟨retention, hot⟩ := unadministered writes
    refine ⟨⟨grown, updated, held, kept, by rw [appended, same, append_assoc], others⟩, ?_⟩
    intro isHot
    rw [retention] at isHot
    rw [hot isHot]
    exact manifest isHot

theorem recovers_of_layout (lawful : host.Lawful) (layout : Layout host files blocks records)
    (valid : ∀ block ∈ blocks, block.Valid host)
    (room : ∀ block ∈ blocks, block.id.toNat + 1 < 2 ^ 64) (absent : files.lookup .manifest = none)
    {entries : List Entry} {content : Option Bytes} (log : Log (files.lookup .wal) entries content)
    (readable : ∀ entry ∈ entries, entry.Readable host.blake3) :
    Recovers host (.ofFiles files) (blocks.flatMap Block.entries ++ unsealed blocks entries) := by
  have read : manifestIn files = .ok (.hot, []) := by rw [manifestIn, absent]
  obtain ⟨opened, ran, loaded⟩ := load_valid lawful layout valid read (.inl rfl) log readable
  have kept := loaded.keeps layout valid room log readable
  have manifest : manifestIn opened.dir.files = .ok (.hot, []) := by
    rw [manifestIn, loaded.kept .manifest (by simp), if_neg (by decide), absent]
  have unlisted : Unlisted host (blocks.flatMap Block.entries ++ unsealed blocks entries) opened :=
    ⟨⟨blocks, records, _, { kept with manifest := ⟨.hot, [], manifest, .inl rfl⟩ }, rfl,
      unsealed_unsealed blocks entries⟩, fun _ => ⟨.hot, manifest⟩⟩
  refine ⟨opened, ran, by rw [kept.entries lawful], fun more store run => ?_⟩
  obtain ⟨⟨grown, updated, held, consistent, same, distinct⟩, _⟩ := run.unlisted lawful unlisted
  obtain ⟨reopened, loadedAgain, keptAgain, _⟩ := consistent.reopen lawful
  rw [distinct] at keptAgain
  rw [← same, consistent.toKeeps.entries lawful]
  exact ⟨rfl, reopened, loadedAgain, by rw [keptAgain.toKeeps.entries lawful]⟩

/-! ## Stopping while sealing -/

theorem crashedSeal_nil (keeps : Keeps host blocks records [] store) (count : Nat) :
    crashedSeal host store count = .ofFiles store.dir.files := by
  have empty : store.writer.isEmpty = true := by rw [keeps.written]; rfl
  have ran : sealWriter host { store with dir := store.dir.stopAfter count } =
      (.ok (), { store with dir := store.dir.stopAfter count }) := by
    rw [sealWriter, get_bind, if_pos empty]
    rfl
  rw [crashedSeal, ran]
  rfl

variable {count : Nat}

theorem sealWriter_stopAfter (keeps : Keeps host blocks records tail store) (nonempty : tail ≠ []) :
    sealWriter host { store with dir := store.dir.stopAfter count } = (do
        let segment ← onDir (store.writer.sealSegment host store.nextSegmentId)
        Action.modify fun store =>
          { store with nextSegmentId := store.nextSegmentId + 1, sealed := store.sealed ++ [segment] }
        dropWal
        disk (removeIfPresent .wal)
        if store.retention ≠ RetentionClass.hot then retain host)
      { store with dir := (ofFiles store.dir.files).stopAfter count, writer := .new } := by
  have empty : store.writer.isEmpty = false := by
    rw [keeps.written, isEmpty_holding keeps.readable, isEmpty_eq_false_iff.mpr nonempty]
  rw [sealWriter, get_bind, empty, ← keeps.reliable]
  rfl

/-- Stopped early, only the temporary file has changed. -/
theorem crashedSeal_lt (keeps : Keeps host blocks records tail store) (nonempty : tail ≠ [])
    (early : count < 4) :
    ∃ files, crashedSeal host store count = .ofFiles files ∧ ∀ name, name ≠ .segmentTmp store.nextSegmentId →
        files.lookup name = store.dir.files.lookup name := by
  obtain ⟨fault, after, stopped, others⟩ := replace_stopAfter_lt store.dir.files
    (.segmentTmp store.nextSegmentId) (.segment store.nextSegmentId) (store.writer.sealedBytes host)
    early
  refine ⟨after.files, ?_, others⟩
  have sealing : store.writer.sealSegment host store.nextSegmentId
      ((ofFiles store.dir.files).stopAfter count) = (.error (segmentIo fault), after) := by
    refine bind_of_error ?_
    simp only [mapError, stopped, Except.mapError]
  rw [crashedSeal, sealWriter_stopAfter keeps nonempty]
  have refused : onDir (store.writer.sealSegment host store.nextSegmentId)
      { store with dir := (ofFiles store.dir.files).stopAfter count, writer := .new } = _ :=
    onDir_of sealing
  rw [bind_of_error refused]
  rfl

theorem crashedSeal_add (keeps : Keeps host blocks records tail store) (nonempty : tail ≠ [])
    (hot : store.retention = .hot) (flushed : store.wal = some []) (count : Nat) :
    ∃ files, crashedSeal host store (count + 4) = .ofFiles files ∧
      files.lookup .wal = (if count = 0 then store.dir.files.lookup .wal else none) ∧
      Renamed host store files := by
  obtain ⟨renamed, written, replaced⟩ := replace_stopAfter_add store.dir.files
    (.segmentTmp store.nextSegmentId) (.segment store.nextSegmentId) (store.writer.sealedBytes host)
    count
  have sealing : store.writer.sealSegment host store.nextSegmentId
      ((ofFiles store.dir.files).stopAfter (count + 4)) =
      (.ok (store.writer.metadata host store.nextSegmentId), (ofFiles renamed).stopAfter count) :=
    bind_of_ok (mapError_eq_ok.mpr written)
  let emptied : SegmentStore := { store with
    dir := (ofFiles store.dir.files).stopAfter (count + 4)
    writer := .new }
  have sealed : onDir (store.writer.sealSegment host store.nextSegmentId) emptied = _ :=
    onDir_of sealing
  let listed : SegmentStore := { emptied with
    dir := (ofFiles renamed).stopAfter count
    nextSegmentId := store.nextSegmentId + 1
    sealed := store.sealed ++ [store.writer.metadata host store.nextSegmentId] }
  have dropped : dropWal listed = (.ok (), { listed with wal := none }) := by
    rw [dropWal, get_bind, show listed.wal = some [] from flushed]
    rfl
  obtain ⟨outcome, after, removal, removed⟩ := removeIfPresent_stopAfter renamed .wal count
  have crashed : crashedSeal host store (count + 4) = .ofFiles after.files := by
    rw [crashedSeal, sealWriter_stopAfter keeps nonempty, bind_of_ok sealed,
      modify_bind, if_neg (not_not.mpr hot), bind_of_ok dropped]
    cases outcome with
    | ok _ =>
      have last : disk (removeIfPresent .wal) { listed with wal := none } = _ :=
        disk_of_ok removal
      rw [bind_of_ok last]
      rfl
    | error fault =>
      have last : disk (removeIfPresent .wal) { listed with wal := none } = _ :=
        disk_of_error removal
      rw [bind_of_error last]
      rfl
  refine ⟨after.files, crashed, ?_⟩
  split_ifs at removed ⊢ with first
  · rw [removed]
    exact ⟨replaced .wal, fun name _ => replaced name⟩
  · obtain ⟨_, without⟩ := removed
    refine ⟨by rw [without, if_pos rfl], fun name other => ?_⟩
    rw [without, if_neg other]
    exact replaced name

theorem Recovers.entries_unique {dir : Disk} {entries others : List Entry}
    (first : Recovers host dir entries) (second : Recovers host dir others) : entries = others := by
  obtain ⟨opened, loaded, read, _⟩ := first
  obtain ⟨again, reloaded, reread, _⟩ := second
  cases loaded.symm.trans reloaded
  exact Except.ok.inj (read.symm.trans reread)

theorem unsealed_snoc (blocks : List Block) (id : UInt64) (tail : List Entry) :
    unsealed (blocks ++ [⟨id, tail⟩]) tail = [] := by
  rw [unsealed, filter_eq_nil_iff]
  intro entry member
  simp only [flatMap_append, flatMap_singleton, map_append, mem_append,
    decide_not, Bool.not_eq_true', decide_eq_false_iff_not, not_not]
  exact .inr (mem_map_of_mem member)

theorem loadSegments_last {archived : SortedMap UInt64 Bytes} (lawful : host.Lawful)
    (reliable : store.dir = .ofFiles files) (flags : SortedMap UInt64 Bool)
    (valid : ∀ block ∈ blocks, block.Valid host)
    (finds : ∀ block ∈ blocks, Finds host archived.entries files block) {id : UInt64} {bytes : Bytes}
    (unarchived : archived.lookup id = none) (present : files.lookup (.segment id) = some bytes)
    {outcome : Except JournalError (List SealedSegment)}
    (parsed : (∃ fault, parseSegmentBytes host bytes id = .error fault ∧ outcome = .error fault) ∨
      (parseSegmentBytes host bytes id = .ok none ∧ outcome = .ok (blocks.map fun block =>
        block.segment host ((flags.lookup block.id).getD false)))) :
    loadSegments host archived flags (blocks.map Block.id ++ [id]) store = (outcome, store) := by
  have read : parseSegment host archived id store = (parseSegmentBytes host bytes id, store) := by
    rw [parseSegment, unarchived]
    exact readSegmentMeta_of_lookup reliable present
  rw [loadSegments_blocks lawful reliable flags valid finds]
  obtain ⟨fault, refused, rfl⟩ | ⟨short, rfl⟩ := parsed
  · rw [refused] at read
    have last : loadSegments host archived flags [id] store = (.error fault, store) :=
      bind_of_error read
    rw [last]
    rfl
  · rw [short] at read
    have last : loadSegments host archived flags [id] store = (.ok [], store) := by
      refine (bind_of_ok read).trans ?_
      rw [unarchived]
      rfl
    rw [last]
    exact Prod.ext (congrArg Except.ok (append_nil _)) rfl

/-- With the log gone, what was sealed is loaded only if the decoder takes it. -/
theorem fits_of_recovers (lawful : host.Lawful) (keeps : Keeps host blocks records tail store)
    (nonempty : tail ≠ []) (absent : store.dir.files.lookup .manifest = none)
    (renamed : Renamed host store files) (gone : files.lookup .wal = none)
    (recovers : Recovers host (.ofFiles files) (blocks.flatMap Block.entries ++ tail)) :
    host.Fits store.writer.buffer := by
  let block : Block := ⟨store.nextSegmentId, tail⟩
  have layout := keeps.renamed renamed
  have read : manifestIn files = .ok (.hot, []) := by
    rw [manifestIn, renamed .manifest (by simp), if_neg (by simp), if_neg (by simp), absent]
  have unarchived : (SortedMap.ofList records).lookup block.id = none := by
    by_contra present
    obtain ⟨bytes, archived⟩ := Option.ne_none_iff_exists'.mp present
    obtain ⟨other, member, same⟩ := keeps.layout.archived _ (SortedMap.mem_of_lookup_ofList archived)
    exact absurd (congrArg Prod.fst same).symm (keeps.below other member).ne
  have earlier {clean : Files FileName} (tidy : Layout host clean (blocks ++ [block]) records) :
      ∀ other ∈ blocks, Finds host (SortedMap.ofList records).entries clean other :=
    fun other member => tidy.finds (mem_append_left _ member)
  have loose {clean : Files FileName} (tidy : Layout host clean (blocks ++ [block]) records) :
      clean.lookup (.segment block.id) = some (block.file host) := by
    obtain archived | ⟨_, loose⟩ := tidy.finds (mem_append_right blocks mem_cons_self)
    · cases archived.symm.trans unarchived
    · exact loose
  have ids : (blocks ++ [block]).map Block.id = blocks.map Block.id ++ [block.id] := map_append ..
  obtain ⟨opened, loaded, entries, _⟩ := recovers
  by_contra oversized
  cases parsed : parseSegmentBytes host (block.file host) block.id with
  | error fault =>
    have stops : (load host (.ofFiles files)).1 = .error fault := by
      obtain ⟨_, _, ran⟩ := load_of_outcome layout read (.inl rfl) fun clean tidy store reliable =>
        ids ▸ loadSegments_last lawful reliable (flagsOf []) keeps.valid (earlier tidy) unarchived
          (loose tidy) (.inl ⟨fault, parsed, rfl⟩)
      exact ran
    rw [loaded] at stops
    cases stops
  | ok found =>
    cases found with
    | some segment =>
      have fits := ((SegmentWriter.parseSegmentBytes_holding lawful keeps.readable).mp parsed).1
      rw [← keeps.written] at fits
      exact oversized fits
    | none =>
      obtain ⟨clean, cleaned, ran⟩ := load_of_outcome layout read (.inl rfl) fun clean tidy store reliable =>
          ids ▸ loadSegments_last lawful reliable (flagsOf []) keeps.valid (earlier tidy) unarchived
            (loose tidy) (.inr ⟨parsed, rfl⟩)
      have serves := serves_withLoaded .hot [] ((blocks ++ [block]).map Block.id) lawful keeps.layout
        keeps.valid (earlier (layout.cleaned cleaned))
      have log : Log (clean.lookup .wal) [] none := by
        rw [cleaned.kept rfl, gone]
        exact .absent
      obtain ⟨after, recovered, _, others⟩ := recoverWal_of_log serves rfl log (forall_mem_nil _)
      cases loaded.symm.trans (ran.trans recovered)
      rw [show unsealed blocks [] = [] from rfl,
        (serves.recovered others []).entries rfl (forall_mem_nil _)] at entries
      exact nonempty (append_cancel_left (Except.ok.inj entries)).symm

def buffering (entries : List Entry) : SegmentStore :=
  { unread (.ofFiles ((∅ : Files FileName).insert .wal (walPrefix ++ entries.flatMap Entry.frame))) with
    writer := .holding entries
    wal := some [] }

theorem buffering_logs (entries : List Entry) :
    (buffering entries).dir.files.lookup .wal = some (walPrefix ++ entries.flatMap Entry.frame) :=
  AList.lookup_insert _

theorem buffering_keeps {entries : List Entry} (readable : ∀ entry ∈ entries, entry.Readable host.blake3) :
    Keeps host [] [] entries (buffering entries) where
  reliable := rfl
  layout := ⟨.nil, rfl, forall_mem_nil _, forall_mem_nil _, nofun⟩
  valid := forall_mem_nil _
  describes := .nil
  archived := rfl
  below := forall_mem_nil _
  written := rfl
  readable
  logs := ⟨entries, readable, rfl, .inl ⟨[], _, rfl, buffering_logs entries, append_nil _⟩⟩
  idle := nofun

/-- More than a gibibyte of frames in one slice. -/
def oversized : List Entry :=
  List.replicate 22369622 firstSpawn

end SegmentStore

end Ldgr
