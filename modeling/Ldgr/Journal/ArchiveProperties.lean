import Ldgr.Journal.Archive

/-! The bytes an archive is loaded from are its header and the encodings of its records. -/

namespace Ldgr

open Base Format Reader Directory ArchiveRecord List

theorem digest_hashAt (bytes : Bytes) (offset : Nat) (inside : offset + 32 ≤ bytes.length) :
    (hashAt bytes offset).digest.1 = slice bytes offset 32 := by
  rw [hashAt, dif_pos (length_slice inside)]

theorem hashAt_append {front : Bytes} (rest : Bytes) {offset : Nat} (hash : EntryHash)
    (start : front.length = offset) : hashAt (front ++ (hash.digest.1 ++ rest)) offset = hash := by
  have found := slice_append rest start hash.digest.2
  simp only [hashAt, found, hash.digest.2, dif_pos]

/-! ## Records -/

theorem readArchiveRecord_exactly :
    Exactly readArchiveRecord (fun record => record.2.length < 2 ^ 64) encode where
  nonempty record := by
    refine ne_nil_of_length_pos ?_
    simp only [encode, length_append, length_leBytes]
    omega
  reads := by
    intro input rest record
    simp only [readArchiveRecord, bind_eq_ok, take_eq_ok, pure_eq_ok, encode]
    constructor
    · rintro ⟨ordinal, _, ⟨eight, rfl⟩, length, _, ⟨wide, rfl⟩, bytes, _, ⟨exactly, rfl⟩, rfl, rfl⟩
      have ordinalFits := leNat_lt ordinal
      have lengthFits := leNat_lt length
      have sameOrdinal := leBytes_leNat ordinal
      have sameLength := leBytes_leNat length
      rw [eight] at ordinalFits sameOrdinal
      rw [wide] at lengthFits sameLength
      refine ⟨exactly ▸ lengthFits, ?_⟩
      rw [exactly, sameLength, UInt64.toNat_ofNat_of_lt' ordinalFits, sameOrdinal]
      simp only [append_assoc]
    · rintro ⟨fits, rfl⟩
      refine ⟨_, _, ⟨length_leBytes 8 record.1.toNat, by simp only [append_assoc]⟩, _, _,
        ⟨length_leBytes 8 record.2.length, rfl⟩, _, _, ⟨(leNat_leBytes fits).symm, rfl⟩, ?_, rfl⟩
      rw [leNat_leBytes record.1.toNat_lt, UInt64.ofNat_toNat]

/-! ## Whole archives -/

theorem length_archiveHeader (count : UInt64) (chain : EntryHash) :
    (archiveHeader count chain).length = archiveHeaderLen := by
  simp only [archiveHeader, length_append, length_beBytes, chain.digest.2]
  rfl

variable (blake3 : Bytes → EntryHash)

/-- The file that holds exactly `records`. -/
def archiveBytes (records : List ArchiveRecord) : Bytes :=
  archiveHeader (UInt64.ofNat records.length) (records.foldl (archiveChain blake3) (initialChain blake3)) ++
    records.flatMap encode

theorem not_lt_length_archiveBytes (records : List ArchiveRecord) :
    ¬(archiveBytes blake3 records).length < archiveHeaderLen := by
  rw [archiveBytes, length_append, length_archiveHeader]
  omega

section Header

variable (count : UInt64) (chain : EntryHash) (rest : Bytes)

theorem checkArchiveHeader_header : checkArchiveHeader (archiveHeader count chain ++ rest) = .ok () := by
  have magic : (archiveHeader count chain ++ rest).take 4 = magicJournalArchive := by
    simp only [archiveHeader, append_assoc]
    exact take_left' rfl
  have version : beAt 4 (archiveHeader count chain ++ rest) 4 = archiveFormatVersion := by
    rw [archiveHeader, append_assoc, append_assoc, append_assoc]
    exact beAt_append _ rfl (by decide)
  simp only [checkArchiveHeader, magic, version, ne_eq, not_true_eq_false, if_false]

theorem recordCount_header :
    UInt64.ofNat (beAt 8 (archiveHeader count chain ++ rest) archiveRecordCountOffset) = count := by
  have found : beAt 8 (archiveHeader count chain ++ rest) archiveRecordCountOffset = count.toNat := by
    rw [archiveHeader, append_assoc, append_assoc]
    refine beAt_append _ ?_ count.toNat_lt
    rw [length_append, length_beBytes]
    rfl
  rw [found, UInt64.ofNat_toNat]

theorem chain_header : hashAt (archiveHeader count chain ++ rest) archiveChainOffset = chain := by
  rw [archiveHeader, append_assoc]
  refine hashAt_append rest chain ?_
  simp only [length_append, length_beBytes]
  rfl

end Header

theorem header_of_fields {bytes : Bytes} (long : archiveHeaderLen ≤ bytes.length)
    (checked : checkArchiveHeader bytes = .ok ()) {count : UInt64}
    (counted : count = UInt64.ofNat (beAt 8 bytes archiveRecordCountOffset)) :
    bytes = archiveHeader count (hashAt bytes archiveChainOffset) ++ bytes.drop archiveHeaderLen := by
  unfold checkArchiveHeader at checked
  split_ifs at checked with magic version
  rw [not_not] at magic version
  rw [archiveHeaderLen] at long
  have versionBytes := beBytes_beAt bytes 4 4 (by omega)
  have countBytes := beBytes_beAt bytes 8 8 (by omega)
  have chainBytes := digest_hashAt bytes 16 (by omega)
  have first := drop_eq_slice_append bytes 4 4
  have second := drop_eq_slice_append bytes 8 8
  have third := drop_eq_slice_append bytes 16 32
  rw [version] at versionBytes
  have narrow : (UInt64.ofNat (beAt 8 bytes 8)).toNat = beAt 8 bytes 8 := by
    refine UInt64.toNat_ofNat_of_lt' ?_
    have bounded := beNat_lt (slice bytes 8 8)
    rwa [length_slice (by omega)] at bounded
  rw [archiveHeader, archiveChainOffset, archiveHeaderLen, chainBytes, versionBytes, ← magic, counted,
    archiveRecordCountOffset, narrow, countBytes]
  simp only [append_assoc, ← third, ← second, ← first]
  rw [take_append_drop]

theorem parseArchive_eq_ok {blake3 : Bytes → EntryHash} {bytes : Bytes}
    {records : List ArchiveRecord} :
    parseArchive blake3 bytes = .ok records ↔
      (∀ record ∈ records, record.2.length < 2 ^ 64) ∧ bytes = archiveBytes blake3 records := by
  constructor
  · intro parsed
    unfold parseArchive at parsed
    split_ifs at parsed with short
    simp only [except_bind_eq_ok] at parsed
    obtain ⟨_, checked, found, read, parsed⟩ := parsed
    split_ifs at parsed with chain count
    cases parsed
    rw [not_not] at chain count
    obtain ⟨each, stream⟩ := readArchiveRecord_exactly.all_eq_ok.mp read
    refine ⟨each, ?_⟩
    rw [archiveBytes, chain, ← stream]
    exact header_of_fields (Nat.le_of_not_lt short) checked count
  · rintro ⟨each, rfl⟩
    have stream : (archiveBytes blake3 records).drop archiveHeaderLen =
        records.flatMap encode := drop_left' (length_archiveHeader ..)
    have read := readArchiveRecord_exactly.all_eq_ok.mpr ⟨each, stream⟩
    rw [parseArchive, if_neg (not_lt_length_archiveBytes blake3 records), except_bind_eq_ok]
    refine ⟨(), checkArchiveHeader_header .., except_bind_eq_ok.mpr ⟨records, read, ?_⟩⟩
    rw [archiveBytes, chain_header, recordCount_header, if_neg (not_not.mpr rfl), if_neg (not_not.mpr rfl)]

namespace ArchiveStore

def loaded (files : Files FileName) : Except JournalError (List ArchiveRecord) :=
  match files.lookup .archive with
  | none => .ok []
  | some content => parseArchive blake3 content

theorem load_ofFiles (files : Files FileName) :
    load blake3 (.ofFiles files) = (loaded blake3 files, .ofFiles files) :=
  readIfFile_ofFiles segmentIo (parseArchive blake3) []

theorem load_reopen (dir : Disk) :
    (load blake3 dir.reopen).1 = loaded blake3 dir.files := by
  rw [reopen, load_ofFiles]

variable {blake3 : Bytes → EntryHash} {files : Files FileName} {records : List ArchiveRecord}

theorem loaded_eq_ok : loaded blake3 files = .ok records ↔ (files.lookup .archive = none ∧ records = []) ∨
      (files.lookup .archive = some (archiveBytes blake3 records) ∧
        ∀ record ∈ records, record.2.length < 2 ^ 64) := by
  unfold loaded
  cases files.lookup .archive with
  | none => simp [eq_comm]
  | some content => simp [parseArchive_eq_ok, and_comm]

/-- The handle on a file that holds exactly `records`. -/
def holding (blake3 : Bytes → EntryHash) (records : List ArchiveRecord) : ArchiveStore where
  position := (archiveBytes blake3 records).length
  chain := records.foldl (archiveChain blake3) (initialChain blake3)
  recordCount := UInt64.ofNat records.length

theorem new_of_loaded {dir opened : Disk} {store : ArchiveStore} (valid : loaded blake3 dir.files = .ok records)
    (result : new blake3 dir = (.ok store, opened)) : store = holding blake3 records ∧
      opened.files.lookup .archive = some (archiveBytes blake3 records) ∧
      ∀ record ∈ records, record.2.length < 2 ^ 64 := by
  rw [new, Action.bind_eq_ok] at result
  obtain ⟨_, made, createdDir, result⟩ := result
  obtain ⟨_, _, ⟨⟩, rfl⟩ := call_eq_ok.mp (Action.mapError_eq_ok.mp createdDir)
  obtain ⟨found, _, ⟨⟩, result⟩ := Action.bind_eq_ok.mp result
  obtain ⟨absent, rfl⟩ | ⟨present, fits⟩ := loaded_eq_ok.mp valid
  · rw [if_neg (by rw [absent]; exact Bool.false_ne_true)] at result
    obtain ⟨_, _, written, ⟨⟩⟩ := Action.bind_eq_ok.mp result
    simp only [Action.mapError_eq_ok, Action.bind_eq_ok] at written
    obtain ⟨_, _, created, _, _, magic, _, _, version, _, _, count, chain⟩ := written
    have empty := lookup_of_create created
    have whole := lookup_of_append chain (lookup_of_append count
      (lookup_of_append version (lookup_of_append magic empty)))
    have form : archiveBytes blake3 [] = [] ++ magicJournalArchive ++ beBytes 4 archiveFormatVersion ++
        beBytes 8 0 ++ (initialChain blake3).digest.1 := by
      rw [archiveBytes, archiveHeader, flatMap_nil, append_nil, nil_append]
      rfl
    refine ⟨?_, form ▸ whole, forall_mem_nil _⟩
    rw [holding, archiveBytes, flatMap_nil, append_nil, length_archiveHeader]
    rfl
  · rw [if_pos (by rw [present]; rfl)] at result
    obtain ⟨_, _, openedFile, result⟩ := Action.bind_eq_ok.mp result
    obtain ⟨_, _, _, ⟨⟩, rfl⟩ := onFile_eq_ok.mp (Action.mapError_eq_ok.mp openedFile)
    obtain ⟨_, _, read, result⟩ := Action.bind_eq_ok.mp result
    obtain ⟨_, _, found, rfl, rfl⟩ := onFile_eq_ok.mp (Action.mapError_eq_ok.mp read)
    cases present.symm.trans found
    rw [if_neg (not_lt_length_archiveBytes blake3 records)] at result
    obtain ⟨_, _, checked, ⟨⟩⟩ := Action.bind_eq_ok.mp result
    obtain ⟨_, rfl⟩ := Action.ofExcept_eq_ok.mp checked
    refine ⟨?_, present, fits⟩
    rw [holding, archiveBytes, chain_header, recordCount_header]

/-! ## Appending -/

theorem overwrite_chain (count : UInt64) (chain next : EntryHash) (rest : Bytes) :
    overwrite (archiveHeader count chain ++ rest) archiveChainOffset next.digest.1 =
      archiveHeader count next ++ rest := by
  rw [archiveHeader, archiveHeader, append_assoc, append_assoc _ next.digest.1]
  refine overwrite_inside rest ?_ (chain.digest.2.trans next.digest.2.symm)
  simp only [length_append, length_beBytes]
  rfl

theorem overwrite_recordCount (count next : UInt64) (chain : EntryHash) (rest : Bytes) :
    overwrite (archiveHeader count chain ++ rest) archiveRecordCountOffset
        (beBytes 8 next.toNat) = archiveHeader next chain ++ rest := by
  simp only [archiveHeader, append_assoc]
  rw [← append_assoc, ← append_assoc magicJournalArchive]
  refine overwrite_inside _ ?_ (by rw [length_beBytes, length_beBytes])
  rw [length_append, length_beBytes]
  rfl

theorem archiveBytes_snoc (blake3 : Bytes → EntryHash) (records : List ArchiveRecord) (record : ArchiveRecord) :
    archiveBytes blake3 (records ++ [record]) = archiveHeader (UInt64.ofNat records.length + 1)
          (archiveChain blake3 (records.foldl (archiveChain blake3) (initialChain blake3)) record) ++
        (records.flatMap encode ++ record.encode) := by
  rw [archiveBytes, length_append, length_singleton, foldl_append,
    flatMap_append, flatMap_singleton, UInt64.ofNat_add]
  rfl

/-- The archive after some of the writes of an append: the record first, then the chain. -/
theorem foldl_writes (blake3 : Bytes → EntryHash) (records : List ArchiveRecord) (ordinal : UInt64)
    (segmentBytes : Bytes) (count : Nat) :
    ∃ content, (((holding blake3 records).writes blake3 ordinal segmentBytes).take count).foldl
        (fun content write => overwrite content write.1 write.2) (archiveBytes blake3 records) = content ∧
      (count = 0 → content = archiveBytes blake3 records) ∧
      (5 ≤ count → content = archiveBytes blake3 (records ++ [(ordinal, segmentBytes)])) ∧
      (0 < count → count < 5 → ∃ chain tail, tail ≠ [] ∧
        content = archiveHeader (UInt64.ofNat records.length) chain ++ (records.flatMap encode ++ tail)) := by
  generalize chained : records.foldl (archiveChain blake3) (initialChain blake3) = chain
  generalize streamed : records.flatMap encode = stream
  have start : archiveBytes blake3 records = archiveHeader (UInt64.ofNat records.length) chain ++ stream := by
    rw [archiveBytes, chained, streamed]
  have atEnd (written : Bytes) :
      (archiveHeader (UInt64.ofNat records.length) chain ++ (stream ++ written)).length =
        (holding blake3 records).position + written.length := by
    simp only [holding, start, length_append, Nat.add_assoc]
  have first := overwrite_end (atEnd []) (leBytes 8 ordinal.toNat)
  have second := overwrite_end (atEnd (leBytes 8 ordinal.toNat)) (leBytes 8 segmentBytes.length)
  have third := overwrite_end (atEnd (leBytes 8 ordinal.toNat ++ leBytes 8 segmentBytes.length)) segmentBytes
  simp only [append_nil, length_nil, Nat.add_zero, length_append, length_leBytes,
    append_assoc] at first second third
  have nonempty : leBytes 8 ordinal.toNat ≠ [] := ne_nil_of_length_pos (by simp)
  refine ⟨_, rfl, fun none => by rw [none]; rfl, fun all => ?_, fun positive small => ?_⟩
  · rw [take_of_length_le all, start, writes]
    simp only [foldl_cons, foldl_nil, first, second, third]
    rw [overwrite_chain, overwrite_recordCount, archiveBytes_snoc, chained, streamed, holding, chained,
      encode, append_assoc]
  · rw [start, writes]
    match count, positive, small with
    | 1, _, _ => exact ⟨chain, _, nonempty, first⟩
    | 2, _, _ =>
      simp only [take_succ_cons, take_zero, foldl_cons, foldl_nil, first, second]
      exact ⟨chain, _, append_ne_nil_of_left_ne_nil nonempty _, rfl⟩
    | 3, _, _ =>
      simp only [take_succ_cons, take_zero, foldl_cons, foldl_nil, first, second, third]
      exact ⟨chain, _, append_ne_nil_of_left_ne_nil nonempty _, rfl⟩
    | 4, _, _ =>
      simp only [take_succ_cons, take_zero, foldl_cons, foldl_nil, first, second, third, overwrite_chain]
      exact ⟨_, _, append_ne_nil_of_left_ne_nil nonempty _, rfl⟩

theorem archiveHeader_append_inj {count other : UInt64} {chain next : EntryHash} {rest tail : Bytes}
    (same : archiveHeader count chain ++ rest = archiveHeader other next ++ tail) :
    count = other ∧ rest = tail := by
  have counts := recordCount_header count chain rest
  rw [same, recordCount_header] at counts
  exact ⟨counts.symm, append_inj_right same (by rw [length_archiveHeader, length_archiveHeader])⟩

/-- After some but not all of the writes, neither the old nor the new records are loaded. -/
theorem loaded_append_stopAfter {dir : Disk}
    (present : dir.files.lookup .archive = some (archiveBytes blake3 records))
    (fits : ∀ record ∈ records, record.2.length < 2 ^ 64) (ordinal : UInt64) {segmentBytes : Bytes}
    (small : segmentBytes.length < 2 ^ 64) (count : Nat) :
    (∃ found, loaded blake3 ((holding blake3 records).append blake3 ordinal segmentBytes
        (dir.stopAfter count)).2.files = .ok found ∧
      (found = records ∨ found = records ++ [(ordinal, segmentBytes)])) ↔ count = 0 ∨ 5 ≤ count := by
  have ran : ((holding blake3 records).append blake3 ordinal segmentBytes (dir.stopAfter count)).2 =
      (writeEach .archive ((holding blake3 records).writes blake3 ordinal segmentBytes)
        (dir.stopAfter count)).2 := by
    rw [append, Action.bind_pure_apply]
    rfl
  obtain ⟨content, written, none, all, some⟩ := foldl_writes blake3 records ordinal segmentBytes count
  have both : ∀ record ∈ records ++ [(ordinal, segmentBytes)], record.2.length < 2 ^ 64 := by
    intro record member
    obtain old | new := mem_append.mp member
    · exact fits record old
    · exact mem_singleton.mp new ▸ small
  rw [ran, loaded, writeEach_stopAfter present, written]
  simp only [parseArchive_eq_ok]
  constructor
  · rintro ⟨found, ⟨_, rfl⟩, which⟩
    by_contra partway
    obtain ⟨chain, tail, unfinished, same⟩ := some (by omega) (by omega)
    obtain rfl | rfl := which
    · obtain ⟨_, same⟩ := archiveHeader_append_inj same
      exact unfinished (append_right_eq_self.mp same.symm)
    · rw [archiveBytes_snoc] at same
      obtain ⟨same, _⟩ := archiveHeader_append_inj same
      have values := congrArg UInt64.toNat same
      rw [UInt64.toNat_add] at values
      have bounded := (UInt64.ofNat records.length).toNat_lt
      have one : (1 : UInt64).toNat = 1 := rfl
      omega
  · rintro (stopped | finished)
    · exact ⟨records, ⟨fits, none stopped⟩, .inl rfl⟩
    · exact ⟨_, ⟨both, all finished⟩, .inr rfl⟩

/-! ## Without faults -/

theorem new_ofFiles (valid : loaded blake3 files = .ok records) :
    ∃ after, new blake3 (.ofFiles files) = (.ok (holding blake3 records), .ofFiles after) ∧
      after.lookup .archive = some (archiveBytes blake3 records) ∧
      ∀ name, name ≠ .archive → after.lookup name = files.lookup name := by
  suffices opens : ∃ store after, new blake3 (.ofFiles files) = (.ok store, .ofFiles after) ∧
      ∀ name, name ≠ .archive → after.lookup name = files.lookup name by
    obtain ⟨store, after, result, others⟩ := opens
    obtain ⟨rfl, found, _⟩ := new_of_loaded valid result
    exact ⟨after, result, found, others⟩
  have step : new blake3 (.ofFiles files) = (if (files.lookup FileName.archive).isSome then openExisting
      else createEmpty blake3) (ofFiles files) := rfl
  rw [step]
  cases present : files.lookup .archive with
  | none =>
    rw [Option.isSome_none, if_neg Bool.false_ne_true]
    have written (files : Files FileName) {content : Bytes} (bytes : Bytes) :=
      append_ofFiles (AList.lookup_insert (a := FileName.archive) (b := content) files) bytes
    refine ⟨_, _, Action.bind_of_ok (Action.mapError_eq_ok.mpr ((Action.bind_of_ok
      (create_ofFiles files .archive)).trans ((Action.bind_of_ok (written ..)).trans
        ((Action.bind_of_ok (written ..)).trans ((Action.bind_of_ok (written ..)).trans
          (written ..)))))), fun name other => ?_⟩
    simp only [AList.lookup_insert_ne other]
  | some content =>
    rw [Option.isSome_some, if_pos rfl]
    obtain ⟨absent, _⟩ | ⟨found, _⟩ := loaded_eq_ok.mp valid
    · rw [present] at absent
      cases absent
    · have opened : Action.mapError segmentIo (openFile .archive) (.ofFiles files) = _ :=
        Action.mapError_eq_ok.mpr (openFile_ofFiles found)
      have read : Action.mapError segmentIo (Directory.read .archive) (.ofFiles files) = _ :=
        Action.mapError_eq_ok.mpr (read_ofFiles found)
      have checked : checkArchiveHeader (archiveBytes blake3 records) = .ok () :=
        checkArchiveHeader_header ..
      let store : ArchiveStore :=
        { position := (archiveBytes blake3 records).length
          chain := hashAt (archiveBytes blake3 records) archiveChainOffset
          recordCount := UInt64.ofNat (beAt 8 (archiveBytes blake3 records) archiveRecordCountOffset) }
      have result : openExisting (.ofFiles files) = (.ok store, .ofFiles files) := by
        refine (Action.bind_of_ok opened).trans ((Action.bind_of_ok read).trans ?_)
        rw [if_neg (not_lt_length_archiveBytes blake3 records), checked]
        rfl
      exact ⟨store, files, result, fun _ _ => rfl⟩

theorem append_ofFiles (present : files.lookup .archive = some (archiveBytes blake3 records)) (ordinal : UInt64)
    (segmentBytes : Bytes) :
    ∃ after, (holding blake3 records).append blake3 ordinal segmentBytes (.ofFiles files) =
        (.ok (holding blake3 (records ++ [(ordinal, segmentBytes)])), .ofFiles after) ∧
      after.lookup .archive = some (archiveBytes blake3 (records ++ [(ordinal, segmentBytes)])) ∧
      ∀ name, name ≠ .archive → after.lookup name = files.lookup name := by
  obtain ⟨after, written, found, others⟩ := writeEach_ofFiles present
    ((holding blake3 records).writes blake3 ordinal segmentBytes)
  obtain ⟨_, rfl, _, all, _⟩ := foldl_writes blake3 records ordinal segmentBytes 5
  refine ⟨after, (Action.bind_of_ok (Action.mapError_eq_ok.mpr written)).trans ?_,
    found.trans (congrArg some (all (Nat.le_refl 5))), others⟩
  have handle : (holding blake3 (records ++ [(ordinal, segmentBytes)])) =
      { position := (holding blake3 records).position + 16 + segmentBytes.length
        chain := archiveChain blake3 (holding blake3 records).chain (ordinal, segmentBytes)
        recordCount := (holding blake3 records).recordCount + 1 } := by
    have size : (archiveBytes blake3 (records ++ [(ordinal, segmentBytes)])).length =
        (archiveBytes blake3 records).length + 16 + segmentBytes.length := by
      simp only [archiveBytes, length_append, length_archiveHeader, flatMap_append,
        flatMap_singleton, encode, length_leBytes]
      omega
    rw [holding, size, foldl_append, length_append, UInt64.ofNat_add]
    rfl
  rw [handle]
  rfl

end ArchiveStore

end Ldgr
