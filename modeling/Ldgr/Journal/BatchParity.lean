import Ldgr.Journal.DagProperties
import Ldgr.Journal.Segment.Frames

/-! A batch is a loop of single appends: same results, same observations, same frames. -/

namespace Ldgr

open Base Format Action

/-- The parents a single append has to observe to stand for one entry of a batch. -/
def BatchEntry.observedAfter (spec : BatchEntry) (previous : Option EntryHash) : List EntryHash :=
  spec.observedParents ++ (if spec.chainPrevious then previous else none).toList

namespace Journal

variable {blake3 : Bytes → EntryHash}

/-- The batch as single appends, each id paired with the entry found under it at once. Whether a
fork shares the base may differ from call to call. -/
def appendEach (blake3 : Bytes → EntryHash) (shared : Nat → Bool) : Option EntryHash → List BatchEntry →
      Action Journal JournalError (List (EntryHash × Option Entry))
  | _, [] => pure []
  | previous, spec :: batch => do
      let id ← append blake3 (shared batch.length) spec.kind spec.actor
        (spec.observedAfter previous) spec.payload
      let journal ← Action.get
      let rest ← appendEach blake3 shared (some id) batch
      pure ((id, journal.get id) :: rest)

/-! ## The batch loop -/

variable {previous : Option EntryHash} {spec : BatchEntry} {fault : JournalError}
  {batch : List BatchEntry} {journal after : Journal} {recorded : List RecordedEntry}

theorem appendEntries_of_error {journal : Journal} (batch : List BatchEntry)
    (refused : journal.prepareBatched blake3 previous spec = .error fault) :
    appendEntries blake3 previous (spec :: batch) journal = (.error fault, journal) := by
  simp only [appendEntries, get_bind, refused, ofExcept_error_bind]

theorem appendEntries_of_ok {journal : Journal} {recorded : RecordedEntry} (batch : List BatchEntry)
    (prepared : journal.prepareBatched blake3 previous spec = .ok recorded) :
    appendEntries blake3 previous (spec :: batch) journal =
      (do let rest ← appendEntries blake3 (some recorded.entry.id) batch
          pure (recorded :: rest) : Action Journal JournalError (List RecordedEntry))
        (journal.insert recorded.entry spec.actor) := by
  simp only [appendEntries, get_bind, prepared, ofExcept_ok_bind, modify_bind]

theorem appendEntries_cons_eq_ok
    (applied : appendEntries blake3 previous (spec :: batch) journal = (.ok recorded, after)) :
    ∃ first rest, journal.prepareBatched blake3 previous spec = .ok first ∧
      appendEntries blake3 (some first.entry.id) batch (journal.insert first.entry spec.actor) =
        (.ok rest, after) ∧ recorded = first :: rest := by
  cases prepared : journal.prepareBatched blake3 previous spec with
  | error refusal =>
    rw [appendEntries_of_error batch prepared] at applied
    cases applied
  | ok first =>
    rw [appendEntries_of_ok batch prepared, bind_pure_eq_ok] at applied
    obtain ⟨rest, applied, rfl⟩ := applied
    exact ⟨first, rest, rfl, applied, rfl⟩

theorem append_of_prepareBatched {journal other : Journal} (agrees : journal.Agrees other)
    (shared : Bool) {recorded : RecordedEntry}
    (prepared : journal.prepareBatched blake3 previous spec = .ok recorded) :
    append blake3 shared spec.kind spec.actor (spec.observedAfter previous) spec.payload other =
      (.ok recorded.entry.id, (other.insert recorded.entry spec.actor).freezeIfFull shared) := by
  apply append_of_ok
  rw [← agrees.prepareAppend, BatchEntry.observedAfter, ← prepareBatched_eq, prepared]
  rfl

theorem append_of_refused {journal other : Journal} (agrees : journal.Agrees other) (shared : Bool)
    (refused : journal.prepareBatched blake3 previous spec = .error fault) :
    append blake3 shared spec.kind spec.actor (spec.observedAfter previous) spec.payload other =
      (.error fault, other) := by
  apply append_of_error
  rw [← agrees.prepareAppend, BatchEntry.observedAfter, ← prepareBatched_eq, refused]
  rfl

/-- Single appends may freeze in between, so the two journals only agree. -/
theorem appendEach_simulates (shared : Nat → Bool) (previous : Option EntryHash)
    (batch : List BatchEntry) {journal other : Journal} (agrees : journal.Agrees other) :
    (appendEach blake3 shared previous batch other).1 = (appendEntries blake3 previous batch journal).1.map
          (List.map fun recorded => (recorded.entry.id, some recorded.entry)) ∧
      (appendEntries blake3 previous batch journal).2.Agrees
        (appendEach blake3 shared previous batch other).2 := by
  induction batch generalizing previous journal other with
  | nil => exact ⟨rfl, agrees⟩
  | cons spec batch ih =>
    cases prepared : journal.prepareBatched blake3 previous spec with
    | error fault =>
      rw [appendEntries_of_error batch prepared, appendEach,
        bind_of_error (append_of_refused agrees _ prepared)]
      exact ⟨rfl, agrees⟩
    | ok recorded =>
      have stored := append_of_prepareBatched agrees (shared batch.length) prepared
      have after : (journal.insert recorded.entry spec.actor).Agrees
          ((other.insert recorded.entry spec.actor).freezeIfFull (shared batch.length)) :=
        (agrees.insert _ _).trans (freezeIfFull_agrees _ _).symm
      have found := congrFun after.get recorded.entry.id
      rw [get_insert, if_pos rfl] at found
      obtain ⟨same, agree⟩ := ih (some recorded.entry.id) after
      rw [appendEntries_of_ok batch prepared, appendEach, bind_of_ok stored, get_bind, ← found]
      simp only [bind_pure_apply, same]
      refine ⟨?_, agree⟩
      cases (appendEntries blake3 (some recorded.entry.id) batch
        (journal.insert recorded.entry spec.actor)).1 <;> rfl

theorem appendEntries_error (failed : appendEntries blake3 previous batch journal = (.error fault, after)) :
    ∃ accepted rejected rest recorded, batch = accepted ++ rejected :: rest ∧
      appendEntries blake3 previous accepted journal = (.ok recorded, after) := by
  induction batch generalizing previous journal with
  | nil => cases failed
  | cons spec batch ih =>
    cases prepared : journal.prepareBatched blake3 previous spec with
    | error refusal =>
      rw [appendEntries_of_error batch prepared] at failed
      cases failed
      exact ⟨[], spec, batch, [], rfl, rfl⟩
    | ok recorded =>
      rw [appendEntries_of_ok batch prepared, bind_pure_eq_error] at failed
      obtain ⟨accepted, rejected, rest, appended, split, applied⟩ := ih failed
      refine ⟨spec :: accepted, rejected, rest, recorded :: appended, by simp [split], ?_⟩
      rw [appendEntries_of_ok accepted prepared, bind_pure_eq_ok]
      exact ⟨appended, applied, rfl⟩

theorem appendEntries_ids (applied : appendEntries blake3 previous batch journal = (.ok recorded, after)) :
    after.ids = journal.ids ++ recorded.map (·.entry.id) := by
  induction batch generalizing previous journal recorded with
  | nil =>
    cases applied
    exact (List.append_nil _).symm
  | cons spec batch ih =>
    obtain ⟨first, rest, _, stored, rfl⟩ := appendEntries_cons_eq_ok applied
    rw [ih stored, ids_insert, List.append_assoc]
    rfl

theorem appendBatchImpl_of_error (shared : Bool)
    (failed : appendEntries blake3 none batch journal = (.error fault, after)) :
    appendBatchImpl blake3 shared batch journal = (.error fault, after) :=
  bind_of_error failed

theorem appendBatchImpl_of_ok (shared : Bool)
    (applied : appendEntries blake3 none batch journal = (.ok recorded, after)) :
    ∃ frozen, appendBatchImpl blake3 shared batch journal = (.ok recorded, frozen) ∧ frozen.Agrees after := by
  rw [appendBatchImpl, bind_of_ok applied]
  split_ifs
  · exact ⟨after, rfl, .refl after⟩
  · exact ⟨after.freezeIfFull shared, rfl, freezeIfFull_agrees shared after⟩

theorem appendBatchImpl_eq_ok {shared : Bool}
    (accepted : appendBatchImpl blake3 shared batch journal = (.ok recorded, after)) :
    ∃ appended, appendEntries blake3 none batch journal = (.ok recorded, appended) ∧ after.Agrees appended := by
  cases result : appendEntries blake3 none batch journal with
  | mk outcome appended =>
    cases outcome with
    | error fault =>
      rw [appendBatchImpl_of_error shared result] at accepted
      cases accepted
    | ok entries =>
      obtain ⟨frozen, stored, agrees⟩ := appendBatchImpl_of_ok shared result
      rw [stored] at accepted
      cases accepted
      exact ⟨appended, rfl, agrees⟩

end Journal

/-! ## Frames -/

def EntryFrame.bytes (frame : EntryFrame) : Bytes :=
  writeFrame frame.id frame.dataLen frame.payload

namespace SegmentWriter

/-- Appends the entries one by one and returns the frames that were written. -/
def appendAll : List Entry → Action SegmentWriter JournalError (List Bytes)
  | [] => pure []
  | entry :: entries => do
      let frame ← append entry
      let frames ← appendAll entries
      pure (frame :: frames)

theorem append_recorded {recorded : RecordedEntry}
    (encoded : encodeEntryPayload recorded.entry = .ok (recorded.dataLen, recorded.scratch))
    (writer : SegmentWriter) :
    append recorded.entry writer = (.ok recorded.frame.bytes,
        writer.push recorded.frame.id recorded.frame.bytes recorded.frame.faultRelevant) := by
  simp only [append, encodeEntryFrame, encoded, Except.map, ofExcept_ok_bind,
    modify_bind, pure_apply, RecordedEntry.frame, EntryFrame.bytes]

theorem appendAll_recorded {recorded : List RecordedEntry}
    (encoded : ∀ one ∈ recorded, encodeEntryPayload one.entry = .ok (one.dataLen, one.scratch))
    (writer : SegmentWriter) :
    appendAll (recorded.map (·.entry)) writer = (.ok (recorded.map (·.frame.bytes)),
        writer.appendFrames (recorded.map RecordedEntry.frame)) := by
  induction recorded generalizing writer with
  | nil => rfl
  | cons first rest ih =>
    have written := append_recorded (encoded first List.mem_cons_self) writer
    rw [List.map_cons, appendAll, bind_of_ok written, bind_pure_apply,
      ih fun one member => encoded one (List.mem_cons_of_mem _ member)]
    rfl

end SegmentWriter

namespace Journal

variable {blake3 : Bytes → EntryHash}

theorem prepareBatched_payload {journal : Journal} {previous : Option EntryHash}
    {spec : BatchEntry} {recorded : RecordedEntry}
    (prepared : journal.prepareBatched blake3 previous spec = .ok recorded) :
    encodeEntryPayload recorded.entry = .ok (recorded.dataLen, recorded.scratch) := by
  simp only [prepareBatched, except_bind_eq_ok, recordedEntry_new_eq_ok] at prepared
  obtain ⟨_, _, _, _, clock, _, encoded, encodes, rfl⟩ := prepared
  simp only [encodeEntryPayload, encodes]

theorem appendEntries_payloads {previous : Option EntryHash} {batch : List BatchEntry}
    {journal after : Journal} {recorded : List RecordedEntry}
    (applied : appendEntries blake3 previous batch journal = (.ok recorded, after)) :
    ∀ one ∈ recorded, encodeEntryPayload one.entry = .ok (one.dataLen, one.scratch) := by
  induction batch generalizing previous journal recorded with
  | nil =>
    cases applied
    simp
  | cons spec batch ih =>
    obtain ⟨first, rest, prepared, stored, rfl⟩ := appendEntries_cons_eq_ok applied
    exact List.forall_mem_cons.mpr ⟨prepareBatched_payload prepared, ih stored⟩

/-! ## Parity -/

/-- A batch is the loop of its single appends: the same result, and afterwards the same entries,
heads, lookups and root hash. A failing batch has extended the journal by the prefix it accepted,
and the frames of an accepted one are those the segment writer makes of the same entries. -/
theorem appendBatch_eq_appendEach (blake3 : Bytes → EntryHash) (journal : Journal)
    (batchShared : Bool) (shared : Nat → Bool) (batch : List BatchEntry) :
    let batched := appendBatch blake3 batchShared batch journal
    let looped := appendEach blake3 shared none batch journal
    batched.1 = looped.1.map (List.map Prod.fst) ∧
    batched.2.entries = looped.2.entries ∧
    (∀ actor, batched.2.headForActor actor = looped.2.headForActor actor) ∧
    (∀ id, batched.2.get id = looped.2.get id) ∧
    batched.2.rootHash blake3 = looped.2.rootHash blake3 ∧
    (∀ fault, batched.1 = .error fault → ∃ accepted rejected rest ids extended,
      batch = accepted ++ rejected :: rest ∧
      appendBatch blake3 batchShared accepted journal = (.ok ids, extended) ∧
      batched.2.ids = journal.ids ++ ids ∧ batched.2.Agrees extended) ∧
    (∀ ids frames after, appendBatchWithFrames blake3 batchShared batch journal = (.ok (ids, frames), after) →
      ∃ appended : List Entry, looped.1 = .ok (appended.map fun entry => (entry.id, some entry)) ∧
        ∀ writer, SegmentWriter.appendAll appended writer =
          (.ok (frames.map EntryFrame.bytes), writer.appendFrames frames)) := by
  intro batched looped
  obtain ⟨same, agree⟩ := @appendEach_simulates blake3 shared none batch _ _ (.refl journal)
  have observed (agrees : batched.2.Agrees looped.2) : batched.2.entries = looped.2.entries ∧
      (∀ actor, batched.2.headForActor actor = looped.2.headForActor actor) ∧
      (∀ id, batched.2.get id = looped.2.get id) ∧
      batched.2.rootHash blake3 = looped.2.rootHash blake3 :=
    ⟨agrees.entries, congrFun agrees.heads, congrFun agrees.get, agrees.rootHash blake3⟩
  cases result : appendEntries blake3 none batch journal with
  | mk outcome after =>
    rw [result] at same agree
    cases outcome with
    | error fault =>
      have failed := appendBatchImpl_of_error batchShared result
      have batchedEq : batched = (.error fault, after) := bind_of_error failed
      have outcomes : batched.1 = looped.1.map (List.map Prod.fst) := by rw [batchedEq, same]; rfl
      obtain ⟨entries, heads, gets, root⟩ := observed (batchedEq ▸ agree)
      refine ⟨outcomes, entries, heads, gets, root, ?_, ?_⟩
      · intro _ _
        obtain ⟨accepted, rejected, rest, recorded, split, applied⟩ := appendEntries_error result
        obtain ⟨frozen, stored, agrees⟩ := appendBatchImpl_of_ok batchShared applied
        refine ⟨accepted, rejected, rest, _, frozen, split, bind_of_ok stored, ?_, ?_⟩
        · rw [batchedEq, appendEntries_ids applied]
        · exact batchedEq ▸ agrees.symm
      · intro ids frames final accepted
        rw [appendBatchWithFrames, bind_of_error failed] at accepted
        cases accepted
    | ok recorded =>
      obtain ⟨frozen, applied, agrees⟩ := appendBatchImpl_of_ok batchShared result
      have batchedEq : batched = (.ok (recorded.map (·.entry.id)), frozen) :=
        bind_of_ok applied
      have outcomes : batched.1 = looped.1.map (List.map Prod.fst) := by
        rw [batchedEq, same]
        simp [Except.map]
      obtain ⟨entries, heads, gets, root⟩ := observed (batchedEq ▸ agrees.trans agree)
      refine ⟨outcomes, entries, heads, gets, root, ?_, ?_⟩
      · intro fault failed
        rw [batchedEq] at failed
        cases failed
      · intro ids frames final accepted
        rw [appendBatchWithFrames, bind_of_ok applied] at accepted
        cases accepted
        refine ⟨recorded.map (·.entry), ?_, fun writer => ?_⟩
        · rw [same]
          simp [Except.map]
        · rw [SegmentWriter.appendAll_recorded (appendEntries_payloads result) writer]
          simp [Function.comp_def]

end Journal

end Ldgr
