import Ldgr.Journal.ActorMap
import Ldgr.Journal.ArchiveProperties
import Ldgr.Journal.Snapshot

/-! Snapshots survive their encoding, and the snapshot file is its header and its records. An append to
it or to the archive that is cut short leaves a file that is readable only once the last write is made. -/

namespace Ldgr

open Base Format Format.Cbor Reader Directory CborValue List SnapshotStore

namespace Snapshot

theorem decodeVectorClock_eq_ok {bytes : Bytes} {clock : VectorClock} :
    decodeVectorClock bytes = .ok clock ↔ bytes = clock.encode := by
  constructor
  · intro decoded
    unfold decodeVectorClock at decoded
    split at decoded
    · cases decoded
    · rename_i pairs tree
      split at decoded
      · cases decoded
      · cases decoded
      · rename_i entries listed
        obtain rfl := Except.ok.inj decoded
        obtain ⟨canonical, _, rfl⟩ := fromCanonicalBytes_eq_ok.mp tree
        rw [mapM_decodeClockPair_eq_ok.mp listed] at canonical ⊢
        rw [← VectorClock.wire_actorMap, SortedMap.entries_ofList (canonical_actorMap.mp canonical).1]
    · cases decoded
  · rintro rfl
    simp only [decodeVectorClock, clock.fromCanonicalBytes_encode, VectorClock.parts, map_map,
      Function.comp_def, mapM_decodeClockPair, SortedMap.ofList_entries]

/-! ## Fields -/

variable {value : CborValue} {snapshot : Snapshot}

theorem decodeActor_eq_ok {actor : ActorId} :
    decodeActor value = .ok actor ↔ value = .unsigned actor.id.toUInt64 := by
  constructor
  · intro decoded
    unfold decodeActor at decoded
    split at decoded
    · split_ifs at decoded with small
      obtain rfl := Except.ok.inj decoded
      rw [toUInt64_toUInt32 small]
    · cases decoded
  · rintro rfl
    rw [decodeActor, if_pos (toNat_toUInt64_lt _), UInt32.toUInt32_toUInt64]

theorem decodeSequence_eq_ok {sequence : UInt64} :
    decodeSequence value = .ok sequence ↔ value = .unsigned sequence := by
  cases value <;> simp [decodeSequence]

theorem decodeFramedHash_eq_ok {field : String} {hash : EntryHash} :
    decodeFramedHash field value = .ok hash ↔ value = .bytes hash.toFramedBytes := by
  cases value with
  | bytes content =>
    rw [decodeFramedHash, bytes.injEq, except_mapError_eq_ok, fromFramedBytes_eq_ok]
  | _ => simp [decodeFramedHash]

theorem decodeClockField_eq_ok {clock : VectorClock} :
    decodeClockField value = .ok clock ↔ value = .bytes clock.encode := by
  cases value with
  | bytes content => rw [decodeClockField, bytes.injEq, decodeVectorClock_eq_ok]
  | _ => simp [decodeClockField]

theorem decodeStateData_eq_ok {content : Bytes} :
    decodeStateData value = .ok content ↔ value = .bytes content := by
  cases value <;> simp [decodeStateData]

/-! ## The whole snapshot -/

def toCbor (snapshot : Snapshot) : CborValue :=
  .array [.unsigned snapshot.actor.id.toUInt64, .unsigned snapshot.sequence,
    .bytes snapshot.entryId.toFramedBytes, .bytes snapshot.vectorClock.encode,
    .bytes snapshot.stateHash.toFramedBytes, .bytes snapshot.stateData]

theorem wire_toCbor (snapshot : Snapshot) : snapshot.toCbor.wire = snapshot.toCanonicalBytes := by
  simp only [toCbor, wire, wireItems, toCanonicalBytes, append_nil, append_assoc]
  rfl

theorem canonical_toCbor : snapshot.toCbor.Canonical ↔ snapshot.stateData.length < 2 ^ 64 := by
  have framed (hash : EntryHash) : hash.toFramedBytes.length < 2 ^ 64 := by
    rw [EntryHash.toFramedBytes, length_cons, length_cons, hash.digest.2]
    decide
  have clock : snapshot.vectorClock.encode.length < 2 ^ 64 :=
    Nat.lt_trans snapshot.vectorClock.length_encode_lt (by decide)
  simp only [toCbor, CborValue.Canonical, CborValue.CanonicalItems, framed, clock]
  simp

theorem fromCanonicalBytes_eq_ok {input : Bytes} : fromCanonicalBytes input = .ok snapshot ↔
      snapshot.stateData.length < 2 ^ 64 ∧ input = snapshot.toCanonicalBytes := by
  have fields {actor sequence entryId clock stateHash stateData : CborValue} : (do
        let actor ← decodeActor actor
        let sequence ← decodeSequence sequence
        let entryId ← decodeFramedHash "entry id" entryId
        let vectorClock ← decodeClockField clock
        let stateHash ← decodeFramedHash "state hash" stateHash
        let stateData ← decodeStateData stateData
        pure { actor, sequence, entryId, vectorClock, stateHash, stateData } :
          Except JournalError Snapshot) = .ok snapshot ↔
      CborValue.array [actor, sequence, entryId, clock, stateHash, stateData] = snapshot.toCbor := by
    simp only [except_bind_eq_ok, decodeActor_eq_ok, decodeSequence_eq_ok, decodeFramedHash_eq_ok,
      decodeClockField_eq_ok, decodeStateData_eq_ok]
    constructor
    · rintro ⟨_, rfl, _, rfl, _, rfl, _, rfl, _, rfl, _, rfl, built⟩
      cases built
      rfl
    · intro built
      simp only [toCbor, CborValue.array.injEq, cons.injEq] at built
      obtain ⟨rfl, rfl, rfl, rfl, rfl, rfl, _⟩ := built
      exact ⟨_, rfl, _, rfl, _, rfl, _, rfl, _, rfl, _, rfl, rfl⟩
  rw [← canonical_toCbor, ← wire_toCbor]
  constructor
  · intro decoded
    unfold fromCanonicalBytes at decoded
    split at decoded
    · cases decoded
    · rename_i tree
      obtain ⟨canonical, _, rfl⟩ := CborValue.fromCanonicalBytes_eq_ok.mp tree
      rw [fields.mp decoded] at canonical ⊢
      exact ⟨canonical, rfl⟩
    · cases decoded
    · cases decoded
  · rintro ⟨canonical, rfl⟩
    have shallow : snapshot.toCbor.depth ≤ maxDepth := by
      simp [toCbor, CborValue.depth, CborValue.depthItems, maxDepth]
    rw [fromCanonicalBytes, CborValue.fromCanonicalBytes_eq_ok.mpr ⟨canonical, shallow, rfl⟩]
    exact fields.mpr rfl

theorem fromCanonicalBytes_toCanonicalBytes (fits : snapshot.stateData.length < 2 ^ 64) :
    fromCanonicalBytes snapshot.toCanonicalBytes = .ok snapshot :=
  fromCanonicalBytes_eq_ok.mpr ⟨fits, rfl⟩

/-- Every snapshot reads back, every accepted input is a snapshot's own bytes, and the clock inside,
listed by ascending actor, always passes the decoder's check of the key order. -/
theorem canonicalBytes_roundTrip : (∀ snapshot : Snapshot, snapshot.stateData.length < 2 ^ 64 →
      fromCanonicalBytes snapshot.toCanonicalBytes = .ok snapshot) ∧
    (∀ (input : Bytes) (snapshot : Snapshot), fromCanonicalBytes input = .ok snapshot →
      snapshot.toCanonicalBytes = input) ∧
    ∀ clock : VectorClock, decodeVectorClock clock.encode = .ok clock ∧
      (actorMap .unsigned clock.components.entries).Canonical ∧
      CborValue.fromCanonicalBytes clock.encode = .ok (actorMap .unsigned clock.components.entries) := by
  refine ⟨fun snapshot fits => fromCanonicalBytes_eq_ok.mpr ⟨fits, rfl⟩,
    fun input snapshot decoded => (fromCanonicalBytes_eq_ok.mp decoded).2.symm, fun clock => ?_⟩
  have canonical : (actorMap CborValue.unsigned clock.components.entries).Canonical :=
    canonical_actorMap.mpr ⟨clock.components.ascending, fun _ _ => trivial⟩
  have shallow : (actorMap CborValue.unsigned clock.components.entries).depth ≤ maxDepth :=
    (depth_actorMap_le fun _ => rfl).trans (by decide)
  refine ⟨decodeVectorClock_eq_ok.mpr rfl, canonical, ?_⟩
  exact CborValue.fromCanonicalBytes_eq_ok.mpr ⟨canonical, shallow, clock.wire_actorMap.symm⟩

def twoActors : Snapshot :=
  { actor := ⟨5⟩, sequence := 7, entryId := zero, stateHash := zero, stateData := [1, 2, 3],
    vectorClock := ⟨SortedMap.ofList [(⟨300⟩, 2), (⟨5⟩, 7)]⟩ }
where
  zero : EntryHash := ⟨⟨replicate 32 0, length_zeros⟩⟩

theorem twoActors_roundTrip :
    ∃ bytes, fromCanonicalBytes bytes = .ok twoActors ∧ twoActors.toCanonicalBytes = bytes := by
  have decoded := canonicalBytes_roundTrip.1 twoActors (by decide)
  exact ⟨_, decoded, canonicalBytes_roundTrip.2.1 _ twoActors decoded⟩

theorem toCanonicalBytes_ne_nil (snapshot : Snapshot) : snapshot.toCanonicalBytes ≠ [] := by
  rw [← wire_toCbor]
  exact ne_nil_of_length_pos (length_wire_pos _)

end Snapshot

/-! ## Records -/

theorem readSnapshotRecord_exactly : Exactly readSnapshotRecord
      (fun record => record.1.length < 2 ^ 64 ∧ Snapshot.fromCanonicalBytes record.1 = .ok record.2)
      (fun record => encodeSnapshotRecord record.1) where
  nonempty record := by
    refine ne_nil_of_length_pos ?_
    rw [encodeSnapshotRecord, length_append, length_leBytes]
    omega
  reads := by
    intro input rest record
    simp only [readSnapshotRecord, bind_eq_ok, take_eq_ok, ofExcept_eq_ok, pure_eq_ok, encodeSnapshotRecord]
    constructor
    · rintro ⟨length, _, ⟨wide, rfl⟩, bytes, _, ⟨exactly, rfl⟩, snapshot, _, ⟨decoded, rfl⟩, rfl, rfl⟩
      have fits := leNat_lt length
      have same := leBytes_leNat length
      rw [wide] at fits same
      refine ⟨⟨exactly ▸ fits, decoded⟩, ?_⟩
      rw [exactly, same, append_assoc]
    · rintro ⟨⟨fits, decoded⟩, rfl⟩
      exact ⟨_, _, ⟨length_leBytes 8 record.1.length, by rw [append_assoc]⟩, _, _,
        ⟨(leNat_leBytes fits).symm, rfl⟩, _, _, ⟨decoded, rfl⟩, rfl, rfl⟩

/-! ## The file -/

variable (chain : EntryHash)

theorem length_snapshotHeader : (snapshotHeader chain).length = snapshotHeaderLen := by
  simp only [snapshotHeader, length_append, length_beBytes, chain.digest.2]
  rfl

theorem checkSnapshotHeader_header (rest : Bytes) :
    checkSnapshotHeader (snapshotHeader chain ++ rest) = .ok () := by
  have magic : (snapshotHeader chain ++ rest).take 4 = magicSnapshotStore := by
    simp only [snapshotHeader, append_assoc]
    exact take_left' rfl
  have version : beAt 4 (snapshotHeader chain ++ rest) 4 = snapshotFormatVersion := by
    rw [snapshotHeader, append_assoc, append_assoc]
    exact beAt_append _ rfl (by decide)
  simp only [checkSnapshotHeader, magic, version, ne_eq, not_true_eq_false, if_false]

theorem chain_snapshotHeader (rest : Bytes) :
    hashAt (snapshotHeader chain ++ rest) snapshotChainOffset = chain := by
  rw [snapshotHeader, append_assoc]
  refine hashAt_append rest chain ?_
  rw [length_append, length_beBytes]
  rfl

theorem snapshotHeader_of_fields {bytes : Bytes} (long : snapshotHeaderLen ≤ bytes.length)
    (checked : checkSnapshotHeader bytes = .ok ()) :
    bytes = snapshotHeader (hashAt bytes snapshotChainOffset) ++ bytes.drop snapshotHeaderLen := by
  unfold checkSnapshotHeader at checked
  split_ifs at checked with magic version
  rw [not_not] at magic version
  rw [snapshotHeaderLen] at long
  have versionBytes := beBytes_beAt bytes 4 4 (by omega)
  have chainBytes := digest_hashAt bytes 8 (by omega)
  have first := drop_eq_slice_append bytes 4 4
  have second := drop_eq_slice_append bytes 8 32
  rw [version] at versionBytes
  rw [snapshotHeader, snapshotChainOffset, snapshotHeaderLen, chainBytes, versionBytes, ← magic]
  simp only [append_assoc, ← second, ← first]
  rw [take_append_drop]

variable (blake3 : Bytes → EntryHash)

/-- The chain over records and the header in front of them. -/
def snapshotBytes (records : List Bytes) : Bytes :=
  snapshotHeader (records.foldl (snapshotChain blake3) (initialChain blake3)) ++
    records.flatMap encodeSnapshotRecord

theorem parseSnapshots_header (stream : Bytes) :
    parseSnapshots blake3 (snapshotHeader chain ++ stream) = (all readSnapshotRecord stream >>= fun records =>
        if (records.map Prod.fst).foldl (snapshotChain blake3) (initialChain blake3) ≠ chain then
          .error .snapshotHashMismatch
        else .ok (records.map Prod.snd)) := by
  have long : ¬(snapshotHeader chain ++ stream).length < snapshotHeaderLen := by
    rw [length_append, length_snapshotHeader]
    omega
  rw [parseSnapshots, if_neg long, checkSnapshotHeader_header, chain_snapshotHeader,
    drop_left' (length_snapshotHeader chain)]
  rfl

theorem parseSnapshots_eq_ok {blake3 : Bytes → EntryHash} {bytes : Bytes}
    {snapshots : List Snapshot} :
    parseSnapshots blake3 bytes = .ok snapshots ↔ ∃ records : List (Bytes × Snapshot),
        (∀ record ∈ records, record.1.length < 2 ^ 64 ∧ Snapshot.fromCanonicalBytes record.1 = .ok record.2) ∧
        snapshots = records.map Prod.snd ∧ bytes = snapshotBytes blake3 (records.map Prod.fst) := by
  constructor
  · intro parsed
    have long : snapshotHeaderLen ≤ bytes.length := by
      by_contra short
      rw [parseSnapshots, if_pos (Nat.lt_of_not_le short)] at parsed
      cases parsed
    have checked : checkSnapshotHeader bytes = .ok () := by
      rw [parseSnapshots, if_neg (Nat.not_lt.mpr long)] at parsed
      obtain ⟨_, checked, _⟩ := except_bind_eq_ok.mp parsed
      exact checked
    have form := snapshotHeader_of_fields long checked
    rw [form, parseSnapshots_header, except_bind_eq_ok] at parsed
    obtain ⟨records, read, parsed⟩ := parsed
    obtain ⟨each, stream⟩ := readSnapshotRecord_exactly.all_eq_ok.mp read
    split_ifs at parsed with chain
    cases parsed
    refine ⟨records, each, rfl, ?_⟩
    rw [snapshotBytes, not_not.mp chain, flatMap_map, ← stream]
    exact form
  · rintro ⟨records, each, rfl, rfl⟩
    rw [snapshotBytes, flatMap_map, parseSnapshots_header,
      readSnapshotRecord_exactly.all_eq_ok.mpr ⟨each, rfl⟩]
    exact if_neg (not_not.mpr rfl)

namespace SnapshotStore

def loaded (files : Files FileName) : Except JournalError (List Snapshot) :=
  match files.lookup .snapshots with
  | none => .ok []
  | some content => parseSnapshots blake3 content

theorem load_ofFiles (files : Files FileName) :
    load blake3 (.ofFiles files) = (loaded blake3 files, .ofFiles files) :=
  readIfFile_ofFiles snapshotIo (parseSnapshots blake3) []

theorem load_reopen (dir : Disk) :
    (load blake3 dir.reopen).1 = loaded blake3 dir.files := by
  rw [reopen, load_ofFiles]

def holding (records : List Bytes) : SnapshotStore where
  position := (snapshotBytes blake3 records).length
  chain := records.foldl (snapshotChain blake3) (initialChain blake3)

theorem new_of_loaded {blake3 : Bytes → EntryHash} {dir opened : Disk} {store : SnapshotStore}
    {snapshots : List Snapshot} (valid : loaded blake3 dir.files = .ok snapshots)
    (result : new blake3 dir = (.ok store, opened)) :
    ∃ records : List (Bytes × Snapshot), (∀ record ∈ records, record.1.length < 2 ^ 64 ∧
        Snapshot.fromCanonicalBytes record.1 = .ok record.2) ∧
      snapshots = records.map Prod.snd ∧ store = holding blake3 (records.map Prod.fst) ∧
      opened.files.lookup .snapshots = some (snapshotBytes blake3 (records.map Prod.fst)) := by
  rw [new, Action.bind_eq_ok] at result
  obtain ⟨_, made, createdDir, result⟩ := result
  obtain ⟨_, _, ⟨⟩, rfl⟩ := call_eq_ok.mp (Action.mapError_eq_ok.mp createdDir)
  obtain ⟨found, _, ⟨⟩, result⟩ := Action.bind_eq_ok.mp result
  unfold loaded at valid
  cases present : dir.files.lookup .snapshots with
  | none =>
    rw [present] at valid
    cases valid
    rw [if_neg (by rw [present]; exact Bool.false_ne_true)] at result
    obtain ⟨_, _, written, ⟨⟩⟩ := Action.bind_eq_ok.mp result
    simp only [Action.mapError_eq_ok, Action.bind_eq_ok] at written
    obtain ⟨_, _, created, _, _, magic, _, _, version, chain⟩ := written
    have empty := lookup_of_create created
    have whole := lookup_of_append chain (lookup_of_append version (lookup_of_append magic empty))
    have form : snapshotBytes blake3 [] = [] ++ magicSnapshotStore ++
        beBytes 4 snapshotFormatVersion ++ (initialChain blake3).digest.1 := by
      rw [snapshotBytes, snapshotHeader, flatMap_nil, append_nil, nil_append]
      rfl
    refine ⟨[], forall_mem_nil _, rfl, ?_, form ▸ whole⟩
    rw [map_nil, holding, snapshotBytes, flatMap_nil, append_nil, length_snapshotHeader]
    rfl
  | some content =>
    rw [present] at valid
    obtain ⟨records, each, rfl, rfl⟩ := parseSnapshots_eq_ok.mp valid
    rw [if_pos (by rw [present]; rfl)] at result
    obtain ⟨_, _, openedFile, result⟩ := Action.bind_eq_ok.mp result
    obtain ⟨_, _, _, ⟨⟩, rfl⟩ := onFile_eq_ok.mp (Action.mapError_eq_ok.mp openedFile)
    obtain ⟨_, _, read, result⟩ := Action.bind_eq_ok.mp result
    obtain ⟨_, _, found, rfl, rfl⟩ := onFile_eq_ok.mp (Action.mapError_eq_ok.mp read)
    cases present.symm.trans found
    have long : ¬(snapshotBytes blake3 (records.map Prod.fst)).length < snapshotHeaderLen := by
      rw [snapshotBytes, length_append, length_snapshotHeader]
      omega
    rw [if_neg long] at result
    obtain ⟨_, _, checked, ⟨⟩⟩ := Action.bind_eq_ok.mp result
    obtain ⟨_, rfl⟩ := Action.ofExcept_eq_ok.mp checked
    refine ⟨records, each, rfl, ?_, present⟩
    rw [holding, snapshotBytes, chain_snapshotHeader]

/-! ## Appending -/

/-- The writes of one append: the record at the end, then the chain in the header. -/
def writes (store : SnapshotStore) (record : Bytes) : List (Nat × Bytes) :=
  [(store.position, leBytes 8 record.length), (store.position + 8, record),
    (snapshotChainOffset, (snapshotChain blake3 store.chain record).digest.1)]

theorem write_bind_disk {store : SnapshotStore} {bytes : Bytes} {writes : List (Nat × Bytes)}
    {next : Unit → Action (SnapshotStore × Disk) JournalError Unit}
    (continues : ∀ disk, (next () ({ store with position := store.position + bytes.length },
      disk)).2.2 = (writeEach .snapshots writes disk).2) (disk : Disk) :
    ((write bytes >>= next) (store, disk)).2.2 =
      (writeEach .snapshots ((store.position, bytes) :: writes) disk).2 := by
  rw [writeEach]
  cases written : writeAt .snapshots store.position bytes disk with
  | mk outcome after =>
    cases outcome with
    | error fault =>
      have refused : write bytes (store, disk) = (.error (snapshotIo fault), store, after) := by
        simp [write, bind, Action.get, Action.zoom, Action.mapError, written, Except.mapError]
      rw [Action.bind_of_error refused, Action.bind_of_error written]
    | ok _ =>
      have done : write bytes (store, disk) =
          (.ok (), { store with position := store.position + bytes.length }, after) := by
        simp [write, bind, Action.get, Action.zoom, Action.mapError, Action.modify, written, Except.mapError]
      rw [Action.bind_of_ok done, Action.bind_of_ok written]
      exact continues after

/-- The cursor is where the list of writes says, so the directory ends up the same. -/
theorem append_disk (store : SnapshotStore) (snapshot : Snapshot) (disk : Disk) :
    (append blake3 snapshot (store, disk)).2.2 =
      (writeEach .snapshots (store.writes blake3 snapshot.toCanonicalBytes) disk).2 := by
  rw [append, Action.get_bind, writes]
  refine write_bind_disk (fun disk => ?_) disk
  rw [length_leBytes]
  refine write_bind_disk (fun disk => ?_) disk
  rw [seek, Action.modify_bind]
  exact write_bind_disk (fun disk => rfl) disk

theorem overwrite_chain (chain next : EntryHash) (rest : Bytes) :
    overwrite (snapshotHeader chain ++ rest) snapshotChainOffset next.digest.1 =
      snapshotHeader next ++ rest := by
  rw [snapshotHeader, snapshotHeader, append_assoc, append_assoc _ next.digest.1]
  refine overwrite_inside rest ?_ (chain.digest.2.trans next.digest.2.symm)
  rw [length_append, length_beBytes]
  rfl

/-- What is loaded after the first `count` writes of an append. The record length alone leaves the
record missing, and the record without its chain hashes to the header only if the chain stays. -/
theorem loaded_append_stopAfter {blake3 : Bytes → EntryHash} {dir : Disk}
    {records : List (Bytes × Snapshot)}
    (each : ∀ record ∈ records, record.1.length < 2 ^ 64 ∧ Snapshot.fromCanonicalBytes record.1 = .ok record.2)
    (present : dir.files.lookup .snapshots = some (snapshotBytes blake3 (records.map Prod.fst)))
    {snapshot : Snapshot} (small : snapshot.toCanonicalBytes.length < 2 ^ 64) (count : Nat) :
    loaded blake3 (append blake3 snapshot (holding blake3 (records.map Prod.fst),
        dir.stopAfter count)).2.2.files =
      if count = 0 then .ok (records.map Prod.snd)
      else if 3 ≤ count ∨ (count = 2 ∧ snapshotChain blake3 (holding blake3 (records.map Prod.fst)).chain
            snapshot.toCanonicalBytes = (holding blake3 (records.map Prod.fst)).chain) then
        .ok (records.map Prod.snd ++ [snapshot])
      else .error .snapshotHashMismatch := by
  have state : snapshot.stateData.length < 2 ^ 64 := by
    refine Nat.lt_of_le_of_lt ?_ small
    simp only [Snapshot.toCanonicalBytes, Cbor.bytes, length_append]
    omega
  have decodes := Snapshot.fromCanonicalBytes_toCanonicalBytes state
  generalize written : snapshot.toCanonicalBytes = record at small decodes ⊢
  have every : ∀ found ∈ records ++ [(record, snapshot)], found.1.length < 2 ^ 64 ∧
      Snapshot.fromCanonicalBytes found.1 = .ok found.2 := by
    intro found member
    obtain old | new := mem_append.mp member
    · exact each found old
    · exact mem_singleton.mp new ▸ ⟨small, decodes⟩
  have nonempty : record ≠ [] := written ▸ snapshot.toCanonicalBytes_ne_nil
  generalize chained : (holding blake3 (records.map Prod.fst)).chain = chain
  generalize streamed : (records.flatMap fun record => encodeSnapshotRecord record.1) = stream
  have start : snapshotBytes blake3 (records.map Prod.fst) = snapshotHeader chain ++ stream := by
    rw [snapshotBytes, flatMap_map, streamed, ← chained, holding]
  have atEnd (tail : Bytes) : (snapshotHeader chain ++ (stream ++ tail)).length =
      (holding blake3 (records.map Prod.fst)).position + tail.length := by
    rw [holding, start, length_append, length_append, length_append, Nat.add_assoc]
  have first := overwrite_end (atEnd []) (leBytes 8 record.length)
  have second := overwrite_end (atEnd (leBytes 8 record.length)) record
  simp only [append_nil, length_nil, Nat.add_zero, append_assoc, length_leBytes] at first second
  have folded : ((records ++ [(record, snapshot)]).map Prod.fst).foldl (snapshotChain blake3)
      (initialChain blake3) = snapshotChain blake3 chain record := by
    rw [map_append, foldl_append, ← chained]
    rfl
  have stream_snoc : stream ++ (leBytes 8 record.length ++ record) =
      (records ++ [(record, snapshot)]).flatMap fun record => encodeSnapshotRecord record.1 := by
    rw [flatMap_append, streamed, flatMap_singleton]
    rfl
  rw [append_disk, loaded, writeEach_stopAfter present, start, writes, chained, written]
  rcases count with _ | _ | _ | count
  · rw [if_pos rfl]
    exact parseSnapshots_eq_ok.mpr ⟨records, each, rfl, start.symm⟩
  · have cut : readSnapshotRecord (leBytes 8 record.length) = .error .snapshotHashMismatch := by
      have prefixed : take 8 JournalError.snapshotHashMismatch (leBytes 8 record.length ++ []) =
          .ok (leBytes 8 record.length, []) := take_append (length_leBytes 8 record.length)
      rw [append_nil] at prefixed
      rw [readSnapshotRecord, bind_of_ok prefixed, leNat_leBytes small]
      have missing : ¬record.length ≤ ([] : Bytes).length := by
        have := length_pos_iff.mpr nonempty
        rw [length_nil]
        omega
      simp only [bind, Reader.take, if_neg missing]
    rw [if_neg Nat.one_ne_zero, if_neg (by omega)]
    simp only [take_succ_cons, take_zero, foldl_cons, foldl_nil, first]
    rw [parseSnapshots_header, ← streamed, readSnapshotRecord_exactly.all_append_error each
      (ne_nil_of_length_pos (by simp)) cut]
    rfl
  · simp only [take_succ_cons, take_zero, foldl_cons, foldl_nil, first, second]
    rw [parseSnapshots_header, readSnapshotRecord_exactly.all_eq_ok.mpr ⟨every, stream_snoc⟩]
    change (if _ then _ else _) = _
    rw [folded, if_neg (by decide : ¬2 = 0)]
    by_cases stays : snapshotChain blake3 chain record = chain
    · rw [if_neg (not_not.mpr stays), if_pos (.inr ⟨trivial, stays⟩), map_append]
      rfl
    · rw [if_pos stays, if_neg (by simp [stays])]
  · rw [if_neg (by omega), if_pos (.inl (by omega)), take_of_length_le (by simp)]
    simp only [foldl_cons, foldl_nil, first, second, overwrite_chain]
    refine parseSnapshots_eq_ok.mpr ⟨_, every, ?_, ?_⟩
    · rw [map_append]
      rfl
    · rw [snapshotBytes, folded, flatMap_map, stream_snoc]

end SnapshotStore

namespace ArchiveStore

def loadAfterCrash (store : ArchiveStore) (ordinal : UInt64)
    (segmentBytes : Bytes) (count : Nat) (opened : Disk) :
    Except JournalError (List ArchiveRecord) :=
  (load blake3 (store.append blake3 ordinal segmentBytes (opened.stopAfter count)).2.reopen).1

end ArchiveStore

namespace SnapshotStore

def loadAfterCrash (store : SnapshotStore) (snapshot : Snapshot)
    (count : Nat) (opened : Disk) : Except JournalError (List Snapshot) :=
  (load blake3 (append blake3 snapshot (store, opened.stopAfter count)).2.2.reopen).1

end SnapshotStore

/-- An interrupted append leaves a loadable file exactly when none or all of its writes were made.
The one exception is a snapshot that leaves the chain hash as it is: its last write changes
nothing. -/
theorem loadAfterCrash_iff (dir : Disk) (count : Nat) :
    (∀ {records : List ArchiveRecord} {store : ArchiveStore} {opened : Disk} {ordinal : UInt64}
      {segmentBytes : Bytes}, (ArchiveStore.load blake3 dir.reopen).1 = .ok records →
      ArchiveStore.new blake3 dir = (.ok store, opened) → segmentBytes.length < 2 ^ 64 →
      ((∃ found, store.loadAfterCrash blake3 ordinal segmentBytes count opened = .ok found ∧
        (found = records ∨ found = records ++ [(ordinal, segmentBytes)])) ↔
        count = 0 ∨ 5 ≤ count)) ∧
    (∀ {snapshots : List Snapshot} {store : SnapshotStore} {opened : Disk} {snapshot : Snapshot},
      (load blake3 dir.reopen).1 = .ok snapshots →
      new blake3 dir = (.ok store, opened) →
      snapshot.toCanonicalBytes.length < 2 ^ 64 →
      ((∃ found, store.loadAfterCrash blake3 snapshot count opened = .ok found ∧
        (found = snapshots ∨ found = snapshots ++ [snapshot])) ↔
        count = 0 ∨ 3 ≤ count ∨
          (count = 2 ∧ snapshotChain blake3 store.chain snapshot.toCanonicalBytes = store.chain))) := by
  constructor
  · intro records store opened ordinal segmentBytes valid result small
    rw [ArchiveStore.load_reopen] at valid
    obtain ⟨rfl, present, fits⟩ := ArchiveStore.new_of_loaded valid result
    rw [ArchiveStore.loadAfterCrash, ArchiveStore.load_reopen]
    exact ArchiveStore.loaded_append_stopAfter present fits ordinal small count
  · intro snapshots store opened snapshot valid result small
    rw [load_reopen] at valid
    obtain ⟨records, each, rfl, rfl, present⟩ := new_of_loaded valid result
    have loads := loaded_append_stopAfter each present small count
    rw [loadAfterCrash, load_reopen, loads]
    split_ifs with first later
    · simp [first]
    · simp [later]
    · simp [first, not_or.mp later]

def emptyDisk : Disk :=
  .ofFiles ∅

def archivedNothing : ArchiveStore :=
  { position := archiveHeaderLen, chain := initialChain checksum, recordCount := 0 }

def noSnapshots : SnapshotStore :=
  { position := snapshotHeaderLen, chain := initialChain checksum }

def bootSnapshot : Snapshot :=
  Snapshot.new checksum ⟨1⟩ 1 (checksum [1]) VectorClock.new [7]

theorem loadAfterCrash_committed :
    (∃ found, archivedNothing.loadAfterCrash checksum 0 [1] 5 (ArchiveStore.new checksum emptyDisk).2 =
      .ok found ∧ (found = [] ∨ found = [] ++ [(0, [1])])) ∧
    (∃ found, noSnapshots.loadAfterCrash checksum bootSnapshot 3
      (new checksum emptyDisk).2 = .ok found ∧
      (found = [] ∨ found = [] ++ [bootSnapshot])) := by
  constructor
  · have created : ArchiveStore.new checksum emptyDisk =
        (.ok archivedNothing, (ArchiveStore.new checksum emptyDisk).2) := rfl
    exact ((loadAfterCrash_iff checksum emptyDisk 5).1 rfl created (by decide)).mpr (.inr (by decide))
  · have created : new checksum emptyDisk =
        (.ok noSnapshots, (new checksum emptyDisk).2) := rfl
    have small : bootSnapshot.toCanonicalBytes.length < 2 ^ 64 := by decide +kernel
    exact ((loadAfterCrash_iff checksum emptyDisk 3).2 rfl created small).mpr (.inr (.inl (by decide)))

/-- The archive with its new chain but its old count, and the snapshot file with a record its chain
does not cover, are both refused. -/
theorem loadAfterCrash_refused : (ArchiveStore.load checksum emptyDisk.reopen).1 = .ok [] ∧
    (load checksum emptyDisk.reopen).1 = .ok [] ∧
    archivedNothing.loadAfterCrash checksum 0 [1] 4 (ArchiveStore.new checksum emptyDisk).2 =
      .error .archiveHashMismatch ∧
    noSnapshots.loadAfterCrash checksum bootSnapshot 2 (new checksum emptyDisk).2 =
      .error .snapshotHashMismatch := by
  refine ⟨rfl, rfl, ?_, ?_⟩
  · decide +kernel
  · decide +kernel

end Ldgr
