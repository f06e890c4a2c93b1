import Ldgr.Journal.Segment.RecoveryProperties

/-! The retention pass over the files of the sealed segments, whatever these files hold: each is moved
to the archive or out of it, and the manifest lists them all. -/

namespace Ldgr

open Base Format SortedMap Action SegmentStore ArchiveStore Reader List

/-! ## Manifest -/

def SealedSegment.manifestEntry (segment : SealedSegment) : ManifestEntry :=
  { id := segment.id, faultRelevant := segment.containsFaultRelevant }

theorem readManifestEntry_record (archived : Bool) (segment : SealedSegment) (rest : Bytes) :
    readManifestEntry (encodeManifestRecord archived segment ++ rest) = .ok (segment.manifestEntry, rest) := by
  have flags : ((archived.toUInt8 ||| (segment.containsFaultRelevant.toUInt8 <<< 1)) &&& 2 ≠ 0) =
      (segment.containsFaultRelevant = true) := by
    cases archived <;> cases segment.containsFaultRelevant <;> decide
  have size : (beBytes 8 segment.entryCount.toNat ++ beBytes 8 segment.uncompressedLen.toNat ++
      beBytes 8 segment.compressedLen.toNat ++ beBytes 4 segment.sampleInterval.toNat ++
      beBytes 8 segment.samples.length ++ segment.rootHash.digest.1).length =
      manifestRecordMetaLen := by
    simp only [length_append, length_beBytes, segment.rootHash.digest.2]
    rfl
  rw [readManifestEntry, encodeManifestRecord, append_assoc, append_assoc,
    bind_of_ok (take_append (length_beBytes ..)),
    bind_of_ok (take_append size)]
  simp only [singleton_append]
  rw [bind_of_ok (next_cons ..), beNat_beBytes segment.id.toNat_lt, UInt64.ofNat_toNat]
  simp only [flags, Bool.decide_eq_true]
  rfl

theorem many_readManifestEntry (archived : SealedSegment → Bool) (sealed : List SealedSegment) (rest : Bytes) :
    many readManifestEntry sealed.length (sealed.flatMap (fun segment =>
        encodeManifestRecord (archived segment) segment) ++ rest) =
      .ok (sealed.map SealedSegment.manifestEntry, rest) := by
  induction sealed with
  | nil => rfl
  | cons segment sealed ih =>
    rw [length_cons, many, flatMap_cons, append_assoc,
      bind_of_ok (readManifestEntry_record ..), bind_of_ok ih]
    rfl

theorem RetentionClass.fromU8_toU8 (retention : RetentionClass) : fromU8 retention.toU8 = some retention := by
  cases retention <;> rfl

theorem readManifest_manifestBytes {store : SegmentStore} (few : store.sealed.length < 2 ^ 64) :
    readManifest store.manifestBytes = .ok (store.retention, store.sealed.map SealedSegment.manifestEntry) := by
  have front : (encodePrefix magicStoreManifest 0).length = framePrefixLen := rfl
  have form : store.manifestBytes = encodePrefix magicStoreManifest 0 ++
      (beBytes 4 manifestVersion ++ (store.retention.toU8 ::
        (beBytes 8 store.sealed.length ++ (store.sealed.flatMap (fun segment =>
          encodeManifestRecord ((store.archived.map Prod.fst).contains segment.id) segment) ++ [])))) := by
    simp only [manifestBytes, append_assoc, append_nil, cons_append, nil_append]
  have contents : readManifestContents (beBytes 4 manifestVersion ++
      (store.retention.toU8 :: (beBytes 8 store.sealed.length ++
        (store.sealed.flatMap (fun segment => encodeManifestRecord
          ((store.archived.map Prod.fst).contains segment.id) segment) ++ [])))) =
      .ok ((store.retention, store.sealed.map SealedSegment.manifestEntry), []) := by
    rw [readManifestContents, Reader.bind_of_ok (Reader.take_append (length_beBytes ..)),
      Reader.require_bind_of (beNat_beBytes (by decide)), Reader.bind_of_ok (Reader.next_cons ..),
      RetentionClass.fromU8_toU8]
    refine (Reader.bind_of_ok (Reader.ofExcept_eq_ok.mpr ⟨rfl, rfl⟩)).trans ?_
    rw [Reader.bind_of_ok (Reader.take_append (length_beBytes ..)), beNat_beBytes few,
      Reader.bind_of_ok (many_readManifestEntry _ _ _)]
    rfl
  have long : ¬store.manifestBytes.length < framePrefixLen := by
    rw [form, length_append, front]
    omega
  have parsed : parsePrefix (store.manifestBytes.take framePrefixLen) magicStoreManifest = .ok
      { magic := magicStoreManifest, formatVersion := formatVersion, headerLen := 0 } := by
    rw [form, take_left' front]
    rfl
  rw [readManifest, if_neg long, parsed, form, drop_left' front, contents]
  rfl

/-! ## The pass over the segments -/

namespace SegmentStore

variable {store : SegmentStore} {host : Host} {files : Files FileName}

/-- The bytes under a segment id are where the store looks for them. -/
def FindsBytes (archived : List ArchiveRecord) (files : Files FileName) (part : ArchiveRecord) : Prop :=
  archived.lookup part.1 = some part.2 ∨
    (archived.lookup part.1 = none ∧ files.lookup (.segment part.1) = some part.2)

theorem segmentBytes_of_findsBytes (reliable : store.dir = .ofFiles files) {part : ArchiveRecord}
    (finds : FindsBytes store.archived files part) :
    segmentBytes part.1 store = (.ok part.2, store) := by
  rw [segmentBytes, get_bind]
  obtain archived | ⟨absent, loose⟩ := finds
  · rw [archived]
    rfl
  · rw [absent]
    exact disk_read reliable loose

/-- How far the pass has come: every segment's bytes are found, the segments seen that stay loose are
out of the archive, and the others are in it or wait to be appended to it. -/
structure Planned (keep : SealedSegment → Bool) (start : SortedMap UInt64 Bytes)
    (original : Files FileName) (parts : List ArchiveRecord) (seen : List SealedSegment)
    (plan : RetainPlan) (files : Files FileName) : Prop where
  finds : ∀ part ∈ parts, FindsBytes plan.archiveMap.entries files part
  freed : ∀ segment ∈ seen, keep segment = true → plan.archiveMap.lookup segment.id = none
  taken : ∀ segment ∈ seen, keep segment = false →
    segment.id ∈ plan.pendingAppend.map Prod.fst ∨ (plan.archiveMap.lookup segment.id).isSome
  pending : ∀ record ∈ plan.pendingAppend, record ∈ parts
  unwanted : ∀ record ∈ plan.pendingAppend, ∃ segment ∈ seen, record.1 = segment.id ∧ keep segment = false
  kept : ∀ id bytes, plan.archiveMap.lookup id = some bytes → (id, bytes) ∈ parts
  unchanged : plan.needsRebuild = false → plan.archiveMap = start
  others : ∀ name, (∀ id, name ≠ .segment id) → (∀ id, name ≠ .segmentTmp id) →
    files.lookup name = original.lookup name
  known : ∀ id, (files.lookup (.segment id)).isSome →
    id ∈ parts.map Prod.fst ∨ (original.lookup (.segment id)).isSome

variable {keep : SealedSegment → Bool} {start : SortedMap UInt64 Bytes} {original : Files FileName}
  {parts : List ArchiveRecord} {seen : List SealedSegment} {plan : RetainPlan}
  {segment : SealedSegment}

theorem Planned.skip (planned : Planned keep start original parts seen plan files)
    (placed : keep segment = (plan.archiveMap.lookup segment.id).isNone) :
    Planned keep start original parts (seen ++ [segment]) plan files :=
  { planned with
    freed := forall_mem_append.mpr ⟨planned.freed, forall_mem_singleton.mpr fun wanted =>
      Option.isNone_iff_eq_none.mp (placed.symm.trans wanted)⟩
    taken := forall_mem_append.mpr ⟨planned.taken, forall_mem_singleton.mpr fun unwanted =>
      .inr (by simpa using placed.symm.trans unwanted)⟩
    unwanted := fun record member =>
      (planned.unwanted record member).imp fun _ found => ⟨mem_append_left _ found.1, found.2⟩ }

theorem Planned.take (planned : Planned keep start original parts seen plan files)
    {part : ArchiveRecord} (member : part ∈ parts) (same : part.1 = segment.id)
    (unwanted : keep segment = false) :
    Planned keep start original parts (seen ++ [segment])
      { plan with pendingAppend := plan.pendingAppend ++ [(segment.id, part.2)] } files where
  finds := planned.finds
  freed := forall_mem_append.mpr ⟨planned.freed,
    forall_mem_singleton.mpr fun wanted => by rw [unwanted] at wanted; cases wanted⟩
  taken := by
    rw [map_append]
    refine forall_mem_append.mpr ⟨fun other earlier unkept => ?_,
      forall_mem_singleton.mpr fun _ => .inl (mem_append_right _ mem_cons_self)⟩
    exact (planned.taken other earlier unkept).imp_left fun waiting => mem_append_left _ waiting
  pending := forall_mem_append.mpr ⟨planned.pending, forall_mem_singleton.mpr (same ▸ member)⟩
  unwanted := forall_mem_append.mpr
    ⟨fun record waiting => (planned.unwanted record waiting).imp fun _ found =>
        ⟨mem_append_left _ found.1, found.2⟩,
      forall_mem_singleton.mpr ⟨segment, mem_append_right _ mem_cons_self, rfl, unwanted⟩⟩
  kept := planned.kept
  unchanged := planned.unchanged
  others := planned.others
  known := planned.known

theorem Planned.free (planned : Planned keep start original parts seen plan files)
    {bytes : Bytes} (found : plan.archiveMap.lookup segment.id = some bytes)
    (wanted : keep segment = true) (agrees : ∀ other ∈ seen, other.id = segment.id → other = segment)
    {after : Files FileName}
    (replaced : Directory.Replaced files (.segmentTmp segment.id) (.segment segment.id) bytes after) :
    Planned keep start original parts (seen ++ [segment])
      { plan with archiveMap := plan.archiveMap.erase segment.id, needsRebuild := true } after where
  finds part member := by
    have erased := plan.archiveMap.lookup_erase segment.id part.1
    by_cases same : part.1 = segment.id
    · rw [if_pos same] at erased
      refine .inr ⟨erased, ?_⟩
      rw [replaced, if_pos (by rw [same])]
      obtain archived | ⟨absent, _⟩ := planned.finds part member
      · rw [← found, ← same]
        exact archived
      · rw [same] at absent
        cases absent.symm.trans found
    · rw [if_neg same] at erased
      have moved : after.lookup (.segment part.1) = files.lookup (.segment part.1) := by
        rw [replaced, if_neg (by simpa using same), if_neg (by simp)]
      obtain archived | ⟨absent, loose⟩ := planned.finds part member
      · exact .inl (erased.trans archived)
      · exact .inr ⟨erased.trans absent, moved.trans loose⟩
  freed := by
    refine forall_mem_append.mpr ⟨fun other member wanted => ?_, forall_mem_singleton.mpr fun _ => ?_⟩
    · rw [lookup_erase, planned.freed other member wanted, ite_self]
    · rw [lookup_erase, if_pos rfl]
  taken := by
    refine forall_mem_append.mpr ⟨fun other member unwanted => ?_,
      forall_mem_singleton.mpr fun unwanted => by rw [wanted] at unwanted; cases unwanted⟩
    have apart : other.id ≠ segment.id := fun same => by
      rw [agrees other member same, wanted] at unwanted
      cases unwanted
    rw [lookup_erase, if_neg apart]
    exact planned.taken other member unwanted
  pending := planned.pending
  unwanted record member :=
    (planned.unwanted record member).imp fun _ found => ⟨mem_append_left _ found.1, found.2⟩
  kept id content present := by
    rw [lookup_erase] at present
    split_ifs at present
    exact planned.kept id content present
  unchanged := nofun
  others name segments temporaries := by
    rw [replaced, if_neg (segments _), if_neg (temporaries _)]
    exact planned.others name segments temporaries
  known id present := by
    by_cases here : id = segment.id
    · exact .inl (here ▸ mem_map_of_mem (planned.kept _ _ found))
    · rw [replaced, if_neg (by simpa using here), if_neg (by simp)] at present
      exact planned.known id present

theorem Planned.visit {tailStart : UInt64} (planned : Planned keep start original parts seen plan files)
    (reliable : store.dir = .ofFiles files) (listed : segment.id ∈ parts.map Prod.fst)
    (agrees : ∀ other ∈ seen, other.id = segment.id → other = segment)
    (keeps : store.shouldKeepLoose segment tailStart = keep segment) :
    ∃ next after, plan.visit tailStart segment store = (.ok next, { store with dir := .ofFiles after }) ∧
      Planned keep start original parts (seen ++ [segment]) next after := by
  rw [RetainPlan.visit, get_bind, keeps]
  cases wanted : keep segment with
  | true =>
    cases found : plan.archiveMap.lookup segment.id with
    | none =>
      exact ⟨plan, files, by rw [← reliable]; rfl, planned.skip (by rw [wanted, found]; rfl)⟩
    | some bytes =>
      obtain ⟨after, written, replaced⟩ := Directory.replace_ofFiles files
        (.segmentTmp segment.id) (.segment segment.id) bytes
      rw [← reliable] at written
      exact ⟨_, after, bind_of_ok (disk_of_ok written), planned.free found wanted agrees replaced⟩
  | false =>
    cases found : plan.archiveMap.lookup segment.id with
    | none =>
      obtain ⟨part, member, same⟩ := mem_map.mp listed
      obtain archived | ⟨_, loose⟩ := planned.finds part member
      · rw [same] at archived
        cases archived.symm.trans found
      · rw [same] at loose
        refine ⟨_, files, ?_, planned.take member same wanted⟩
        rw [← reliable]
        exact bind_of_ok (disk_read reliable loose)
    | some bytes =>
      exact ⟨plan, files, by rw [← reliable]; rfl, planned.skip (by rw [wanted, found]; rfl)⟩

theorem Planned.visitAll {tailStart : UInt64} (sealed : List SealedSegment)
    (planned : Planned keep start original parts seen plan files)
    (reliable : store.dir = .ofFiles files)
    (listed : ∀ segment ∈ sealed, segment.id ∈ parts.map Prod.fst)
    (distinct : ((seen ++ sealed).map (·.id)).Nodup)
    (keeps : ∀ segment, store.shouldKeepLoose segment tailStart = keep segment) :
    ∃ next after, sealed.foldlM (RetainPlan.visit tailStart) plan store =
        (.ok next, { store with dir := .ofFiles after }) ∧
      Planned keep start original parts (seen ++ sealed) next after := by
  induction sealed generalizing seen plan files store with
  | nil => exact ⟨plan, files, by rw [← reliable]; rfl, by rwa [append_nil]⟩
  | cons segment sealed ih =>
    have agrees : ∀ other ∈ seen, other.id = segment.id → other = segment := fun other member =>
      inj_on_of_nodup_map distinct (mem_append_left _ member)
        (mem_append_right _ mem_cons_self)
    obtain ⟨next, after, visited, further⟩ := planned.visit reliable
      (listed segment mem_cons_self) agrees (keeps segment)
    obtain ⟨last, final, rest, done⟩ := @ih { store with dir := .ofFiles after } after _ _ further rfl
      (fun other member => listed other (mem_cons_of_mem _ member))
      (by rwa [append_assoc, singleton_append]) keeps
    refine ⟨last, final, ?_, by simpa using done⟩
    rw [foldlM_cons, bind_of_ok visited, rest]

/-! ## The archive -/

theorem rewriteArchive_eq (reliable : store.dir = .ofFiles files) {records : List ArchiveRecord}
    (small : ∀ record ∈ records, record.2.length < 2 ^ 64) :
    ∃ after, rewriteArchive host records store = (.ok (), { store with dir := .ofFiles after }) ∧
      ArchiveStore.loaded host.blake3 after = .ok records ∧
      ∀ name, name ≠ .archive → name ≠ .archiveTmp → after.lookup name = files.lookup name := by
  unfold rewriteArchive
  split_ifs with empty
  · obtain ⟨after, removed, without⟩ := Directory.removeIfPresent_ofFiles files .archive
    rw [← reliable] at removed
    refine ⟨after, disk_of_ok removed, ArchiveStore.loaded_eq_ok.mpr (.inl ⟨?_, ?_⟩),
      fun name other _ => by rw [without, if_neg other]⟩
    · rw [without, if_pos rfl]
    · exact isEmpty_iff.mp empty
  · obtain ⟨after, written, replaced⟩ := Directory.replace_ofFiles files .archiveTmp .archive
      (archiveBytes host.blake3 records)
    rw [← reliable] at written
    refine ⟨after, onDir_of (mapError_eq_ok.mpr written), ArchiveStore.loaded_eq_ok.mpr (.inr ⟨?_, small⟩),
      fun name other temporary => by rw [replaced, if_neg other, if_neg temporary]⟩
    rw [replaced, if_pos rfl]

theorem foldlM_append {records : List ArchiveRecord} (reliable : store.dir = .ofFiles files)
    (present : files.lookup .archive = some (archiveBytes host.blake3 records))
    (pending : List ArchiveRecord) :
    ∃ after, pending.foldlM (fun archive record =>
        onDir (ArchiveStore.append host.blake3 archive record.1 record.2))
          (ArchiveStore.holding host.blake3 records) store =
        (.ok (ArchiveStore.holding host.blake3 (records ++ pending)),
          { store with dir := .ofFiles after }) ∧
      after.lookup .archive = some (archiveBytes host.blake3 (records ++ pending)) ∧
      ∀ name, name ≠ .archive → after.lookup name = files.lookup name := by
  induction pending generalizing records store files with
  | nil =>
    rw [append_nil]
    exact ⟨files, by rw [← reliable]; rfl, present, fun _ _ => rfl⟩
  | cons record pending ih =>
    obtain ⟨between, appended, found, others⟩ := ArchiveStore.append_ofFiles present record.1 record.2
    rw [← reliable] at appended
    obtain ⟨after, rest, last, further⟩ := @ih { store with dir := .ofFiles between } between _ rfl found
    rw [append_assoc, singleton_append] at rest last
    refine ⟨after, ?_, last, fun name other => (further name other).trans (others name other)⟩
    rw [foldlM_cons, bind_of_ok (onDir_of appended), rest]

theorem appendToArchive_eq (reliable : store.dir = .ofFiles files) {records : List ArchiveRecord}
    (loaded : ArchiveStore.loaded host.blake3 files = .ok records) {pending : List ArchiveRecord}
    (small : ∀ record ∈ pending, record.2.length < 2 ^ 64) :
    ∃ after, appendToArchive host pending store = (.ok (), { store with dir := .ofFiles after }) ∧
      ArchiveStore.loaded host.blake3 after = .ok (records ++ pending) ∧
      ∀ name, name ≠ .archive → after.lookup name = files.lookup name := by
  unfold appendToArchive
  split_ifs with empty
  · rw [isEmpty_iff.mp empty, append_nil]
    exact ⟨files, by rw [← reliable]; rfl, loaded, fun _ _ => rfl⟩
  · have fits : ∀ record ∈ records, record.2.length < 2 ^ 64 := by
      obtain ⟨_, rfl⟩ | ⟨_, fits⟩ := loaded_eq_ok.mp loaded
      · exact forall_mem_nil _
      · exact fits
    obtain ⟨opened, result, found, others⟩ := new_ofFiles loaded
    rw [← reliable] at result
    obtain ⟨after, appended, last, further⟩ := @foldlM_append { store with dir := .ofFiles opened }
      host opened records rfl found pending
    refine ⟨after, (bind_of_ok (onDir_of result)).trans (bind_of_ok appended), ?_,
      fun name other => (further name other).trans (others name other)⟩
    exact loaded_eq_ok.mpr (.inr ⟨last, forall_mem_append.mpr ⟨fits, small⟩⟩)

theorem Planned.updateArchive {records : List ArchiveRecord}
    (planned : Planned keep (.ofList records) original parts seen plan files)
    (distinct : (parts.map Prod.fst).Nodup) (short : ∀ part ∈ parts, part.2.length < 2 ^ 64)
    (archive : loaded host.blake3 original = .ok records)
    (known : ∀ record ∈ records, record ∈ parts) (reliable : store.dir = .ofFiles files) :
    ∃ map updated after, plan.updateArchive host store = (.ok map, { store with dir := .ofFiles after }) ∧
      loaded host.blake3 after = .ok updated ∧
      map.insertAbsent plan.pendingAppend = .ofList updated ∧
      (∀ record ∈ updated, record ∈ parts) ∧
      (∀ id, id ∈ updated.map Prod.fst ↔
        id ∈ plan.pendingAppend.map Prod.fst ∨ (plan.archiveMap.lookup id).isSome) ∧
      ∀ name, name ≠ .archive → name ≠ .archiveTmp → after.lookup name = files.lookup name := by
  have unique (id : UInt64) (bytes others : Bytes) (first : (id, bytes) ∈ parts)
      (second : (id, others) ∈ parts) : bytes = others :=
    congrArg Prod.snd (inj_on_of_nodup_map distinct first second rfl)
  unfold RetainPlan.updateArchive
  cases rebuild : plan.needsRebuild with
  | true =>
    let map := plan.pendingAppend.foldl (fun map record => map.insert record.1 record.2) plan.archiveMap
    have found (id : UInt64) (bytes : Bytes) (present : map.lookup id = some bytes) : (id, bytes) ∈ parts :=
      (enters_insert.mem_or_of_lookup present).elim (planned.pending _) (planned.kept id bytes)
    have each : ∀ record ∈ map.entries, record ∈ parts :=
      fun record member => found record.1 record.2 (lookup_of_mem member)
    obtain ⟨after, written, loaded, others⟩ := @rewriteArchive_eq store host files reliable _
      fun record member => short record (each record member)
    refine ⟨map, map.entries, after, bind_of_ok written, loaded, ?_, each, fun id => ?_, others⟩
    · rw [ofList_entries]
      refine eq_of_keys unique (fun id bytes present => ?_) found fun id => ?_
      · exact (enters_absent.mem_or_of_lookup present).elim (planned.pending _) (found id bytes)
      · rw [insertAbsent, enters_absent.isSome_lookup, enters_insert.isSome_lookup]
        exact or_iff_right_of_imp .inl
    · rw [← isSome_lookup_ofList, ofList_entries, enters_insert.isSome_lookup]
  | false =>
    have start := planned.unchanged rebuild
    have same : files.lookup .archive = original.lookup .archive := planned.others _ nofun nofun
    have loaded : loaded host.blake3 files = .ok records := by
      rw [← archive, loaded, same]
      rfl
    have each : ∀ record ∈ records ++ plan.pendingAppend, record ∈ parts :=
      forall_mem_append.mpr ⟨known, planned.pending⟩
    obtain ⟨after, written, reloaded, others⟩ := @appendToArchive_eq store host files reliable _ loaded _
      fun record member => short record (planned.pending record member)
    refine ⟨plan.archiveMap, records ++ plan.pendingAppend, after, bind_of_ok written, reloaded,
      ?_, each, fun id => ?_, fun name other _ => others name other⟩
    · refine eq_of_keys unique (fun id bytes present => ?_)
        (fun id bytes present => each _ (mem_of_lookup_ofList present)) fun id => ?_
      · exact (enters_absent.mem_or_of_lookup present).elim (planned.pending _) (planned.kept id bytes)
      · rw [insertAbsent, enters_absent.isSome_lookup, isSome_lookup_ofList, start,
          isSome_lookup_ofList, map_append, mem_append, or_comm]
    · rw [start, isSome_lookup_ofList, map_append, mem_append, or_comm]

theorem forM_removeArchivedLoose (archived : SortedMap UInt64 Bytes) (sealed : List SealedSegment)
    (reliable : store.dir = .ofFiles files) :
    ∃ after, sealed.forM (removeArchivedLoose archived) store = (.ok (), { store with dir := .ofFiles after }) ∧
      ∀ name, after.lookup name =
        if ∃ segment ∈ sealed, name = .segment segment.id ∧ (archived.lookup segment.id).isSome then
          none
        else files.lookup name := by
  induction sealed generalizing store files with
  | nil => exact ⟨files, by rw [← reliable]; rfl, fun name => by simp⟩
  | cons segment sealed ih =>
    have step : ∃ between, removeArchivedLoose archived segment store =
          (.ok (), { store with dir := .ofFiles between }) ∧
        ∀ name, between.lookup name =
          if name = .segment segment.id ∧ (archived.lookup segment.id).isSome then none
          else files.lookup name := by
      unfold removeArchivedLoose
      split_ifs with present
      · obtain ⟨between, removed, without⟩ := Directory.removeIfPresent_ofFiles files (.segment segment.id)
        rw [← reliable] at removed
        exact ⟨between, disk_of_ok removed, fun name => by simp [without name, present]⟩
      · exact ⟨files, by rw [← reliable]; rfl, fun name => by simp [present]⟩
    obtain ⟨between, first, removed⟩ := step
    obtain ⟨after, rest, lookups⟩ := @ih { store with dir := .ofFiles between } between rfl
    refine ⟨after, (bind_of_ok first).trans rest, fun name => ?_⟩
    rw [lookups, removed]
    by_cases here : name = .segment segment.id ∧ (archived.lookup segment.id).isSome
    · simp [here]
    · simp [here]

theorem writeManifest_eq (reliable : store.dir = .ofFiles files) (few : store.sealed.length < 2 ^ 64) :
    ∃ after, writeManifest store = (.ok (), { store with dir := .ofFiles after }) ∧
      manifestIn after = .ok (store.retention, store.sealed.map SealedSegment.manifestEntry) ∧
      Directory.Replaced files .manifestTmp .manifest store.manifestBytes after := by
  obtain ⟨after, written, replaced⟩ := Directory.replace_ofFiles files .manifestTmp .manifest
    store.manifestBytes
  rw [← reliable] at written
  refine ⟨after, disk_of_ok written, ?_, replaced⟩
  rw [manifestIn, replaced, if_pos rfl, ← readManifest_manifestBytes few]

/-! ## Retention -/

/-- Each sealed segment's bytes are in the archive or in its loose file, and the archive holds nothing
else. The ids are in order, and the next one is beyond them. -/
structure Intact (host : Host) (parts records : List ArchiveRecord) (store : SegmentStore) : Prop where
  reliable : store.dir = .ofFiles store.dir.files
  ascending : parts.Pairwise (·.1 < ·.1)
  listed : store.sealed.map (·.id) = parts.map Prod.fst
  below : ∀ part ∈ parts, part.1 < store.nextSegmentId
  short : ∀ part ∈ parts, part.2.length < 2 ^ 64
  archive : loaded host.blake3 store.dir.files = .ok records
  known : ∀ record ∈ records, record ∈ parts
  archived : store.archived = (ofList records).entries
  loose : ∀ part ∈ parts, part.1 ∈ records.map Prod.fst ∨ store.dir.files.lookup (.segment part.1) = some part.2

namespace Intact

variable {records : List ArchiveRecord} (intact : Intact host parts records store)
include intact

theorem distinct : (parts.map Prod.fst).Nodup :=
  pairwise_map.mpr (intact.ascending.imp fun below => below.ne)

theorem finds {part : ArchiveRecord} (member : part ∈ parts) :
    FindsBytes (ofList records).entries store.dir.files part := by
  cases found : (ofList records).lookup part.1 with
  | some bytes =>
    have archived := intact.known _ (mem_of_lookup_ofList found)
    refine .inl (found.trans ?_)
    rw [← inj_on_of_nodup_map intact.distinct archived member rfl]
  | none =>
    have absent : part.1 ∉ records.map Prod.fst := fun archived => by
      have present := isSome_lookup_ofList.mpr archived
      rw [found] at present
      cases present
    exact .inr ⟨found, (intact.loose part member).resolve_left absent⟩

/-- The ids of the segments are distinct, so the manifest can count them. -/
theorem few : store.sealed.length < 2 ^ 64 := by
  have nodup : (store.sealed.map (·.id.toNat)).Nodup := by
    have ids := intact.distinct
    rw [← intact.listed] at ids
    simpa [Function.comp_def] using ids.map fun _ _ => UInt64.toNat_inj.mp
  have inside : store.sealed.map (·.id.toNat) ⊆ range store.nextSegmentId.toNat := by
    intro number member
    obtain ⟨segment, listed, rfl⟩ := mem_map.mp member
    have known : segment.id ∈ parts.map Prod.fst := intact.listed ▸ mem_map_of_mem listed
    obtain ⟨part, partMember, same⟩ := mem_map.mp known
    have below := intact.below part partMember
    rw [same] at below
    exact mem_range.mpr below
  have bound := (subperm_of_subset nodup inside).length_le
  rw [length_map, length_range] at bound
  exact bound.trans_lt store.nextSegmentId.toNat_lt

theorem planned (keep : SealedSegment → Bool) :
    Planned keep (.ofList records) store.dir.files parts []
      { archiveMap := .ofList records, pendingAppend := [], needsRebuild := false }
      store.dir.files where
  finds _ member := intact.finds member
  freed := forall_mem_nil _
  taken := forall_mem_nil _
  pending := forall_mem_nil _
  unwanted := forall_mem_nil _
  kept _ _ found := intact.known _ (mem_of_lookup_ofList found)
  unchanged _ := rfl
  others _ _ _ := rfl
  known _ present := .inr present

theorem load_eq :
    onDir (ArchiveStore.load host.blake3) store = (.ok records, store) := by
  have ran : ArchiveStore.load host.blake3 store.dir = (.ok records, store.dir) := by
    rw [intact.reliable, ArchiveStore.load_ofFiles, intact.archive]
  exact onDir_of ran

end Intact

/-- What a retention pass leaves: the segments to be kept loose are the ones that are not archived,
and what is archived has no loose file. -/
structure Retained (host : Host) (parts records : List ArchiveRecord) (store after : SegmentStore) :
    Prop extends Intact host parts records after where
  frame : after = { store with dir := after.dir, archived := after.archived }
  placed : ∀ segment ∈ store.sealed, segment.id ∈ records.map Prod.fst ↔
    store.shouldKeepLoose segment store.newestTailStart = false
  removed : ∀ id ∈ records.map Prod.fst, after.dir.files.lookup (.segment id) = none
  manifest : after.dir.files.lookup .manifest = some after.manifestBytes
  renamed : after.dir.files.lookup .manifestTmp = none
  existed : ∀ id, (after.dir.files.lookup (.segment id)).isSome →
    id ∈ parts.map Prod.fst ∨ (store.dir.files.lookup (.segment id)).isSome
  logged : after.dir.files.lookup .wal = store.dir.files.lookup .wal

theorem retain_intact {records : List ArchiveRecord} (intact : Intact host parts records store) :
    ∃ after updated, retain host store = (.ok (), after) ∧ Retained host parts updated store after := by
  let keep : SealedSegment → Bool := fun segment => store.shouldKeepLoose segment store.newestTailStart
  have known : ∀ segment ∈ store.sealed, segment.id ∈ parts.map Prod.fst := fun segment member =>
    intact.listed ▸ mem_map_of_mem member
  have nodup : (store.sealed.map (·.id)).Nodup := intact.listed ▸ intact.distinct
  obtain ⟨plan, visitedFiles, visited, planned⟩ := (intact.planned keep).visitAll store.sealed
    intact.reliable known nodup fun _ => rfl
  rw [nil_append] at planned
  obtain ⟨map, updated, archivedFiles, written, reloaded, same, named, keys, others⟩ :=
    @Planned.updateArchive { store with dir := .ofFiles visitedFiles } _ _ _ _ _ _ _ _
      planned intact.distinct intact.short intact.archive intact.known rfl
  let archived : SegmentStore := { store with
    dir := .ofFiles archivedFiles
    archived := (ofList updated).entries }
  obtain ⟨looseFiles, removals, removed⟩ := @forM_removeArchivedLoose archived archivedFiles
    (.ofList updated) store.sealed rfl
  obtain ⟨after, listed, _, replaced⟩ := @writeManifest_eq
    { archived with dir := .ofFiles looseFiles } looseFiles rfl intact.few
  have ran : retain host store = (.ok (), { archived with dir := .ofFiles after }) := by
    refine (bind_of_ok intact.load_eq).trans ((bind_of_ok visited).trans ((bind_of_ok written).trans ?_))
    rw [same]
    exact (bind_of_ok removals).trans listed
  have manifestOthers (name : FileName) (other : name ≠ .manifest) (temporary : name ≠ .manifestTmp) :
      after.lookup name = looseFiles.lookup name := by
    rw [replaced, if_neg other, if_neg temporary]
  have segments (id : UInt64) : after.lookup (.segment id) =
      if id ∈ updated.map Prod.fst then none else visitedFiles.lookup (.segment id) := by
    rw [manifestOthers _ (by simp) (by simp), removed, others _ (by simp) (by simp)]
    refine if_congr ⟨?_, fun present => ?_⟩ rfl rfl
    · rintro ⟨segment, _, same, present⟩
      rw [FileName.segment.inj same]
      exact isSome_lookup_ofList.mp present
    · obtain ⟨record, member, rfl⟩ := mem_map.mp present
      have listed := mem_map_of_mem (f := Prod.fst) (named record member)
      rw [← intact.listed] at listed
      obtain ⟨segment, segmentMember, same⟩ := mem_map.mp listed
      exact ⟨segment, segmentMember, by rw [same], same ▸ isSome_lookup_ofList.mpr present⟩
  have archive : loaded host.blake3 after = .ok updated := by
    rw [← reloaded, loaded, manifestOthers _ (by simp) (by simp), removed, if_neg (by simp)]
    rfl
  have loose : ∀ part ∈ parts, part.1 ∈ updated.map Prod.fst ∨
      after.lookup (.segment part.1) = some part.2 := by
    intro part member
    refine or_iff_not_imp_left.mpr fun absent => ?_
    rw [segments, if_neg absent]
    obtain found | ⟨_, loose⟩ := planned.finds part member
    · have present : (plan.archiveMap.lookup part.1).isSome := by rw [SortedMap.lookup, found]; rfl
      exact absurd ((keys part.1).mpr (.inr present)) absent
    · exact loose
  have placed : ∀ segment ∈ store.sealed, segment.id ∈ updated.map Prod.fst ↔ keep segment = false := by
    intro segment member
    rw [keys]
    refine ⟨fun present => Bool.eq_false_iff.mpr fun wanted => ?_, planned.taken segment member⟩
    rw [planned.freed segment member wanted] at present
    obtain ⟨record, waiting, sameRecord⟩ := mem_map.mp (present.resolve_right (by simp))
    obtain ⟨other, otherMember, otherId, unwanted⟩ := planned.unwanted record waiting
    cases inj_on_of_nodup_map nodup member otherMember (sameRecord.symm.trans otherId)
    cases unwanted.symm.trans wanted
  have existed (id : UInt64) (present : (after.lookup (.segment id)).isSome) :
      id ∈ parts.map Prod.fst ∨ (store.dir.files.lookup (.segment id)).isSome := by
    rw [segments] at present
    split_ifs at present
    · cases present
    · exact planned.known id present
  have logged : after.lookup .wal = store.dir.files.lookup .wal := by
    rw [manifestOthers _ (by simp) (by simp), removed, if_neg (by simp), others _ (by simp) (by simp),
      planned.others _ (by simp) (by simp)]
  have manifest := replaced .manifest
  have renamed := replaced .manifestTmp
  rw [if_pos rfl] at manifest
  rw [if_neg (by simp), if_pos rfl] at renamed
  exact ⟨{ archived with dir := .ofFiles after }, updated, ran,
    { reliable := rfl
      ascending := intact.ascending
      listed := intact.listed
      below := intact.below
      short := intact.short
      archive
      known := named
      archived := rfl
      loose
      frame := rfl
      placed
      removed := fun id archived => (segments id).trans (if_pos archived)
      manifest
      renamed
      existed
      logged }⟩

theorem foldlM_visit_of_placed {tailStart : UInt64} {sealed : List SealedSegment} (placed : ∀ segment ∈ sealed,
      store.shouldKeepLoose segment tailStart = (plan.archiveMap.lookup segment.id).isNone) :
    sealed.foldlM (RetainPlan.visit tailStart) plan store = (.ok plan, store) := by
  induction sealed with
  | nil => rfl
  | cons segment sealed ih =>
    have here := placed segment mem_cons_self
    have visited : plan.visit tailStart segment store = (.ok plan, store) := by
      rw [RetainPlan.visit, get_bind, here]
      cases plan.archiveMap.lookup segment.id <;> rfl
    rw [foldlM_cons, bind_of_ok visited,
      ih fun other member => placed other (mem_cons_of_mem _ member)]

theorem Retained.again {records : List ArchiveRecord} {after : SegmentStore}
    (retained : Retained host parts records store after) :
    ∃ files, retain host after = (.ok (), { after with dir := .ofFiles files }) ∧
      ∀ name, files.lookup name = after.dir.files.lookup name := by
  have same : after.sealed = store.sealed ∧ after.retention = store.retention := by
    rw [retained.frame]
    exact ⟨rfl, rfl⟩
  have sameTail : after.newestTailStart = store.newestTailStart := by
    simp only [newestTailStart, same.1]
  have placed : ∀ segment ∈ after.sealed, after.shouldKeepLoose segment after.newestTailStart =
      ((ofList records).lookup segment.id).isNone := by
    intro segment member
    rw [same.1] at member
    have archived := retained.placed segment member
    rw [← isSome_lookup_ofList] at archived
    rw [shouldKeepLoose, same.2, ← shouldKeepLoose, sameTail]
    cases found : (ofList records).lookup segment.id with
    | none =>
      rw [found] at archived
      simpa using archived
    | some bytes =>
      rw [found] at archived
      exact archived.mp rfl
  let plan : RetainPlan :=
    { archiveMap := .ofList records, pendingAppend := [], needsRebuild := false }
  have visited : after.sealed.foldlM (RetainPlan.visit after.newestTailStart) plan after =
      (.ok plan, after) := foldlM_visit_of_placed placed
  have updated : plan.updateArchive host after = (.ok (.ofList records), after) := rfl
  have archived : { after with archived := (ofList records).entries } = after := by
    rw [← retained.archived]
  obtain ⟨looseFiles, removals, removed⟩ := @forM_removeArchivedLoose after after.dir.files
    (.ofList records) after.sealed retained.reliable
  obtain ⟨final, listed, _, replaced⟩ := @writeManifest_eq
    { after with dir := .ofFiles looseFiles } looseFiles rfl retained.few
  refine ⟨final, ?_, fun name => ?_⟩
  · refine (bind_of_ok retained.load_eq).trans ((bind_of_ok visited).trans ((bind_of_ok updated).trans ?_))
    rw [modify_bind]
    show (do
      after.sealed.forM (removeArchivedLoose (.ofList records))
      writeManifest) { after with archived := (ofList records).entries } = _
    rw [archived]
    exact (bind_of_ok removals).trans listed
  · rw [replaced]
    split_ifs with target temporary
    · rw [target, retained.manifest]
      rfl
    · rw [temporary, retained.renamed]
    · rw [removed]
      split_ifs with loose
      · obtain ⟨segment, _, rfl, present⟩ := loose
        exact (retained.removed _ (isSome_lookup_ofList.mp present)).symm
      · rfl

end SegmentStore

end Ldgr
