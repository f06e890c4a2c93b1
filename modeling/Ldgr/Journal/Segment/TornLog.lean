import Ldgr.Journal.Segment.Durability

/-! Loading a store whose recovery log was cut off at any byte. -/

namespace Ldgr

open Base Format List Entry Action

/-! ## Cutting frames -/

/-- The entries whose frames end within the first `count` bytes. -/
def completeWithin : Nat → List Entry → List Entry
  | _, [] => []
  | count, entry :: entries =>
    if entry.frame.length ≤ count then
      entry :: completeWithin (count - entry.frame.length) entries
    else []

theorem completeWithin_subset (count : Nat) (entries : List Entry) :
    completeWithin count entries ⊆ entries := by
  induction entries generalizing count with
  | nil => exact List.Subset.refl _
  | cons entry entries ih =>
    rw [completeWithin]
    split_ifs
    · exact cons_subset_cons entry (ih _)
    · exact nil_subset _

theorem completeWithin_zero {entries : List Entry}
    (encodes : Encoded entries) :
    completeWithin 0 entries = [] := by
  cases entries with
  | nil => rfl
  | cons entry entries =>
    rw [completeWithin, (frame_eq_framed (encodes entry mem_cons_self)).1, length_framed, if_neg (by omega)]

theorem incompleteFrame_take {entry : Entry} (encodes : encodeEntryFrame entry = .ok entry.frame)
    {count : Nat} (cut : ¬entry.frame.length ≤ count) : IncompleteFrame (entry.frame.take count) := by
  obtain ⟨payload, same, _, fits⟩ := encodeEntryFrame_cases encodes
  have length := congrArg List.length same
  rw [length_framed] at length
  have size : (entry.frame.take count).length = count :=
    length_take_of_le (Nat.le_of_not_le cut)
  by_cases short : count < 8
  · exact .inl (size.trans_lt short)
  · have stored : leAt 8 (entry.frame.take count) 0 = payload.length := by
      have kept : entry.frame.take count = leBytes 8 payload.length ++ payload.take (count - 8) := by
        rw [same, framed, take_append, length_leBytes, take_of_length_le (by simp; omega)]
      have read : leAt 8 ([] ++ (leBytes 8 payload.length ++ payload.take (count - 8))) 0 =
          payload.length := leAt_append _ rfl fits
      rwa [nil_append, ← kept] at read
    exact .inr (.inr (by omega))

theorem take_frames {entries : List Entry}
    (encodes : Encoded entries) (count : Nat) :
    ∃ rest, IncompleteFrame rest ∧ (entries.flatMap frame).take count =
      (completeWithin count entries).flatMap frame ++ rest := by
  induction entries generalizing count with
  | nil => exact ⟨[], incompleteFrame_nil, by simp [completeWithin]⟩
  | cons entry entries ih =>
    rw [completeWithin, flatMap_cons, take_append]
    split_ifs with whole
    · obtain ⟨rest, incomplete, others⟩ :=
        ih (fun entry member => encodes entry (mem_cons_of_mem _ member)) (count - entry.frame.length)
      refine ⟨rest, incomplete, ?_⟩
      rw [others, take_of_length_le whole, flatMap_cons, append_assoc]
    · refine ⟨entry.frame.take count, incompleteFrame_take (encodes entry mem_cons_self) whole, ?_⟩
      rw [Nat.sub_eq_zero_of_le (Nat.le_of_not_le whole), take_zero, append_nil]
      rfl

namespace SegmentStore

variable {store after : SegmentStore} {host : Host} {files : Files FileName} {blocks : List Block}
  {records : List ArchiveRecord} {entries : List Entry}

/-! ## Replaying any frames -/

/-- Only entries that can be encoded are restored. -/
theorem restored_of_ok {before : List Entry} (written : store.writer = .holding before)
    (ran : entries.forM restoreEntry store = (.ok (), after)) :
    Encoded entries ∧ after = { store with writer := .holding (before ++ entries) } := by
  induction entries generalizing store before with
  | nil =>
    cases ran
    refine ⟨forall_mem_nil _, ?_⟩
    rw [append_nil, ← written]
  | cons entry entries ih =>
    obtain ⟨_, between, first, rest⟩ := bind_eq_ok.mp ran
    cases encodes : encodeEntryFrame entry with
    | error fault =>
      have refused : onWriter (SegmentWriter.append entry) store = (.error fault, store) := by
        simp only [onWriter, zoom, SegmentWriter.append, encodes, ofExcept_error_bind]
      rw [restoreEntry, bind_of_error refused] at first
      cases first
    | ok frame =>
      have same : frame = entry.frame := by rw [Entry.frame, encodes]; rfl
      rw [same] at encodes
      have appended : onWriter (SegmentWriter.append entry) store = _ :=
        onWriter_of (by rw [written]; exact append_holding before encodes)
      cases (bind_of_ok appended).symm.trans first
      obtain ⟨others, rfl⟩ := ih rfl rest
      refine ⟨forall_mem_cons.mpr ⟨encodes, others⟩, ?_⟩
      rw [append_assoc, singleton_append]

/-- What is recovered are the entries of the log only if each of them is readable and in no block. -/
theorem readable_of_recovered {found recovered : List Entry}
    (encodes : Encoded entries)
    (decoded : entries.mapM (reread host.blake3) = .ok found)
    (kept : recovered = unsealed blocks found)
    (restores : Encoded recovered)
    (read : recovered.mapM (reread host.blake3) = .ok entries) :
    ∀ entry ∈ entries, entry.Readable host.blake3 ∧ entry.id ∉ (blocks.flatMap Block.entries).map (·.id) := by
  have forward := except_mapM_eq_ok.mp decoded
  have backward := except_mapM_eq_ok.mp read
  have all : recovered = found := by
    rw [kept]
    refine filter_eq_self.mpr (length_filter_eq_length_iff.mp ?_)
    rw [← forward.length_eq, ← backward.length_eq, kept]
    rfl
  rw [all] at backward restores kept
  have readable : ∀ entry ∈ entries, entry.Readable host.blake3 := by
    intro entry member
    obtain ⟨position, inside, rfl⟩ := getElem_of_mem member
    have foundInside : position < found.length := forward.length_eq ▸ inside
    exact readable_of_reread (encodes _ member) (restores _ (getElem_mem foundInside))
      (forward.get inside foundInside) (backward.get foundInside inside)
  have same : found = entries := Except.ok.inj (decoded.symm.trans (mapM_reread readable))
  rw [same] at kept
  exact fun entry member => ⟨readable entry member, unsealed_eq_self.mp kept.symm entry member⟩

theorem recoverWal_eq_replayWal (reliable : store.dir = .ofFiles files) {bytes : Bytes}
    (present : files.lookup .wal = some bytes) (nonempty : bytes ≠ []) :
    recoverWal host store = replayWal host bytes store := by
  rw [recoverWal, bind_of_ok (onDir_stays reliable (Directory.isFile_ofFiles files .wal)), present,
    Option.isSome_some, if_pos rfl, bind_of_ok (disk_read reliable present), isEmpty_eq_false_iff.mpr nonempty]
  rfl

/-- The entries come back only if each is readable and in no block. -/
theorem readable_of_replayWal (serves : Serves host files blocks store) (fresh : store.writer = .new)
    (encodes : Encoded entries) {rest : Bytes}
    (incomplete : IncompleteFrame rest)
    (present : files.lookup .wal = some (walPrefix ++ (entries.flatMap frame ++ rest)))
    (ran : replayWal host (walPrefix ++ (entries.flatMap frame ++ rest)) store = (.ok (), after))
    (read : blockEntries host.blake3 after.writer.buffer = .ok entries) :
    ∀ entry ∈ entries, entry.Readable host.blake3 ∧ entry.id ∉ (blocks.flatMap Block.entries).map (·.id) := by
  obtain ⟨cut, replayed, log, _⟩ := replayWal_encoded serves fresh incomplete present encodes
  obtain ⟨recovered, opened, collected, rest⟩ := bind_eq_ok.mp (replayed.symm.trans ran)
  obtain ⟨mapped, rfl⟩ := ofExcept_eq_ok.mp collected
  obtain ⟨_, between, restored, reopened⟩ := bind_eq_ok.mp rest
  have empty : { store with dir := .ofFiles cut }.writer = .holding [] := fresh
  obtain ⟨restores, rfl⟩ := restored_of_ok empty restored
  rw [nil_append] at reopened
  cases (reopenWal_holding rfl log rfl).symm.trans reopened
  cases decoded : entries.mapM (reread host.blake3) with
  | error fault =>
    rw [decoded] at mapped
    cases mapped
  | ok found =>
    rw [decoded] at mapped
    refine readable_of_recovered encodes decoded (Except.ok.inj mapped).symm restores ?_
    rw [← blockEntries_encoded restores]
    exact read

theorem replayWal_short (reliable : store.dir = .ofFiles files) {bytes : Bytes}
    (present : files.lookup .wal = some bytes) (short : bytes.length < framePrefixLen) :
    (replayWal host bytes store).1 = .error (.segmentCorrupt "WAL prefix invalid: TruncatedFrame") := by
  have stop : lastCompleteFrameEnd bytes = 0 := by rw [lastCompleteFrameEnd, if_pos short]
  have refused : checkWalPrefix bytes = .error (.segmentCorrupt "WAL prefix invalid: TruncatedFrame") := by
    rw [checkWalPrefix, parsePrefix, if_pos short]
    rfl
  rw [← nil_append bytes] at present
  obtain ⟨after, cut, _⟩ := truncateWal_front reliable present
  rw [nil_append, length_nil] at cut
  rw [replayWal, stop, bind_of_ok cut, refused, ofExcept_error_bind]

/-! ## Loading after a cut -/

/-- A log cut at any byte is recovered up to its last complete frame, unless the cut is inside its
prefix, or one of the complete frames is not readable or holds an entry of a sealed segment. -/
theorem load_torn_iff (lawful : host.Lawful) (layout : Layout host files blocks records)
    (valid : ∀ block ∈ blocks, block.Valid host) (unlisted : files.lookup .manifest = none)
    (encodes : ∀ entry ∈ entries, encodeEntryFrame entry = .ok entry.frame) {cut : Nat}
    (torn : files.lookup .wal = some ((walPrefix ++ entries.flatMap frame).take cut)) :
    (∃ store, load host (.ofFiles files) = (.ok (), store) ∧ blockEntries host.blake3 store.writer.buffer =
        .ok (completeWithin (cut - framePrefixLen) entries) ∧
      store.dir.files.lookup .wal = some (if cut = 0 then [] else
        walPrefix ++ (completeWithin (cut - framePrefixLen) entries).flatMap frame)) ↔
      cut = 0 ∨ (framePrefixLen ≤ cut ∧ ∀ entry ∈ completeWithin (cut - framePrefixLen) entries,
        entry.Readable host.blake3 ∧ entry.id ∉ (blocks.flatMap Block.entries).map (·.id)) := by
  have read : manifestIn files = .ok (.hot, []) := by rw [manifestIn, unlisted]
  have complete : Encoded (completeWithin (cut - framePrefixLen) entries) := fun entry member =>
    encodes entry (completeWithin_subset _ _ member)
  obtain ⟨clean, cleaned, ran⟩ := load_of_outcome layout read (.inl rfl)
    fun clean tidy store reliable => loadSegments_valid lawful tidy valid store reliable
  have serves := serves_withLoaded .hot [] (blocks.map Block.id) lawful layout valid
    fun block member => (layout.cleaned cleaned).finds member
  let opened := (unread (.ofFiles clean)).withLoaded .hot (blocks.map Block.id) records
    (segmentsOf host [] blocks)
  have logged := (cleaned.kept rfl).trans torn
  by_cases none : cut = 0
  · rw [none, take_zero] at torn
    have log : Log (files.lookup .wal) [] (some []) := torn ▸ .empty
    obtain ⟨store, loaded, facts⟩ := load_valid lawful layout valid read (.inl rfl) log (forall_mem_nil _)
    refine iff_of_true ⟨store, loaded, ?_, ?_⟩ (.inl none)
    · rw [facts.writer, none, Nat.zero_sub, completeWithin_zero encodes]
      rfl
    · rw [facts.log, if_pos none]
  · by_cases whole : framePrefixLen ≤ cut
    · obtain ⟨rest, incomplete, frames⟩ := take_frames encodes (cut - framePrefixLen)
      have form : (walPrefix ++ entries.flatMap frame).take cut = walPrefix ++
          ((completeWithin (cut - framePrefixLen) entries).flatMap frame ++ rest) := by
        rw [take_append, take_of_length_le (length_walPrefix.trans_le whole), length_walPrefix, frames]
      rw [form] at torn logged
      constructor
      · rintro ⟨store, loaded, held, _⟩
        have replayed : recoverWal host opened = _ := recoverWal_eq_replayWal rfl logged (cons_ne_nil _ _)
        exact .inr ⟨whole, readable_of_replayWal serves rfl complete incomplete logged
          (replayed.symm.trans (ran.symm.trans loaded)) held⟩
      · intro condition
        obtain ⟨_, each⟩ := condition.resolve_left none
        have log : Log (files.lookup .wal) (completeWithin (cut - framePrefixLen) entries) (some (walPrefix ++
              (completeWithin (cut - framePrefixLen) entries).flatMap frame)) :=
          torn ▸ .frames incomplete
        have readable := fun entry member => (each entry member).1
        obtain ⟨store, loaded, facts⟩ := load_valid lawful layout valid read (.inl rfl) log readable
        refine ⟨store, loaded, ?_, by rw [facts.log, if_neg none]⟩
        rw [facts.writer, unsealed_eq_self.mpr fun entry member => (each entry member).2]
        exact blockEntries_frames readable
    · have length : ((walPrefix ++ entries.flatMap frame).take cut).length = cut := by
        rw [length_take, length_append, length_walPrefix]
        omega
      have nonempty : (walPrefix ++ entries.flatMap frame).take cut ≠ [] :=
        ne_nil_of_length_pos (by omega)
      have replayed : recoverWal host opened = _ := recoverWal_eq_replayWal rfl logged nonempty
      have refused := @replayWal_short opened host clean rfl _ logged
        (by rw [length]; exact Nat.lt_of_not_le whole)
      refine iff_of_false (fun recovered => ?_) fun condition => ?_
      · obtain ⟨store, loaded, _⟩ := recovered
        rw [← replayed, ← ran, loaded] at refused
        cases refused
      · exact condition.elim none fun within => whole within.1

/-- A directory with the first `cut` bytes of the log of one appended entry. -/
def tornDirectory (cut : Nat) : Files FileName :=
  (∅ : Files FileName).insert .wal ((walPrefix ++ [firstSpawn].flatMap frame).take cut)

theorem tornDirectory_recovers : ∃ store, load plainHost (.ofFiles (tornDirectory 20)) = (.ok (), store) ∧
      blockEntries plainHost.blake3 store.writer.buffer =
        .ok (completeWithin (20 - framePrefixLen) [firstSpawn]) ∧
      store.dir.files.lookup .wal = some (if 20 = 0 then [] else
        walPrefix ++ (completeWithin (20 - framePrefixLen) [firstSpawn]).flatMap frame) := by
  have layout : Layout plainHost (tornDirectory 20) [] [] :=
    ⟨.nil, rfl, forall_mem_nil _, forall_mem_nil _, nofun⟩
  have none : completeWithin (20 - framePrefixLen) [firstSpawn] = [] := by decide +kernel
  refine (load_torn_iff plainHost_lawful layout (forall_mem_nil _) rfl
    (forall_mem_singleton.mpr firstSpawn_readable.encodes) (AList.lookup_insert _)).mpr
    (.inr ⟨by decide, ?_⟩)
  rw [none]
  exact forall_mem_nil _

/-- One byte of a log that was just created is enough for a store not to load. -/
theorem tornDirectory_refused :
    let appended := append plainHost firstSpawn (new plainHost (.ofFiles ∅)).2
    appended.1 = .ok () ∧
      appended.2.close.files.lookup .wal = some (walPrefix ++ [firstSpawn].flatMap frame) ∧
      (load plainHost (.ofFiles (tornDirectory 1))).1 =
        .error (.segmentCorrupt "WAL prefix invalid: TruncatedFrame") := by
  decide +kernel

end SegmentStore

end Ldgr
