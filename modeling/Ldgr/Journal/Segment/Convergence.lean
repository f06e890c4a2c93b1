import Ldgr.Journal.Segment.Calls

/-! Entry lookup through the index of the writer and of each segment. What is read from a store does
not depend on where its segments are, and a retention class puts each of them where it belongs, after
any calls on the store. -/

namespace Ldgr

open Base Format Action List

/-- The payload of the frame at `offset`. -/
def framePayloadAt (block : Bytes) (offset : Nat) : Except JournalError Bytes :=
  if block.length < offset + 8 then .error (.segmentCorrupt "frame offset out of bounds")
  else if block.length < offset + 8 + leAt 8 block offset then
    .error (.segmentCorrupt "frame length exceeds block")
  else .ok (slice block (offset + 8) (leAt 8 block offset))

/-- The first frame from `offset` on that starts with the hash. A frame whose length would not fit
before `stop` is not looked at. Every frame is longer than one byte, so the length of the block is
enough fuel. -/
def scanWindow (block : Bytes) (stop : Nat) (hash : EntryHash) : Nat → Nat → Except JournalError (Option Nat)
  | 0, _ => .ok none
  | fuel + 1, offset =>
    if offset + 8 ≤ stop then do
      match ← nextFrame block offset with
      | none => .ok none
      | some (next, payload) =>
        if 32 ≤ payload.length ∧ payload.take 32 = hash.digest.1 then .ok (some offset)
        else scanWindow block stop hash fuel next
    else .ok none

/-- The windows whose sample shares the front of the hash, then the whole block. -/
def locateInBlock (block : Bytes) (hash : EntryHash) : List (UInt64 × UInt32) → Except JournalError (Option Nat)
  | [] => scanWindow block block.length hash block.length 0
  | (sampleOffset, samplePrefix) :: samples =>
    if samplePrefix ≠ prefixOf hash then locateInBlock block hash samples
    else do
      let windowEnd := (samples.head?.map fun sample => sample.1.toNat).getD block.length
      match ← scanWindow block windowEnd hash block.length sampleOffset.toNat with
      | some found => .ok (some found)
      | none => locateInBlock block hash samples

namespace SegmentStore

def getFromSealed (host : Host) (hash : EntryHash) (segment : SealedSegment) :
    Action SegmentStore JournalError (Option Entry) := do
  let block ← decompressedBlock host segment
  match ← Action.ofExcept (locateInBlock block hash segment.samples) with
  | some offset =>
    let payload ← Action.ofExcept (framePayloadAt block offset)
    let entry ← Action.ofExcept (decodeFramePayload host.blake3 payload)
    pure (if entry.id = hash then some entry else none)
  | none => pure none

/-- The first of the segments that holds the hash. -/
def getFromSegments (host : Host) (hash : EntryHash) :
    List SealedSegment → Action SegmentStore JournalError (Option Entry)
  | [] => pure none
  | segment :: segments => do
      match ← getFromSealed host hash segment with
      | some entry => pure (some entry)
      | none => getFromSegments host hash segments

/-- The entry of the open writer at an offset of its index. -/
def getFromWriter (host : Host) (writer : SegmentWriter) (offset : UInt64) : Except JournalError Entry := do
  let payload ← framePayloadAt writer.buffer offset.toNat
  decodeFramePayload host.blake3 payload

def get (host : Host) (hash : EntryHash) : Action SegmentStore JournalError (Option Entry) := do
  let store ← Action.get
  match store.writer.index.reverse.find? fun indexed => decide (indexed.1 = hash) with
  | some (_, offset) => do
      let entry ← Action.ofExcept (getFromWriter host store.writer offset)
      pure (some entry)
  | none => getFromSegments host hash store.sealed

variable {store : SegmentStore} {host : Host} {parts records : List ArchiveRecord}

/-! ## Reading -/

/-- The stores list the same segments with the same bytes, and hold the same frames. -/
structure SameContents (store after : SegmentStore) : Prop where
  sealed : after.sealed = store.sealed
  writer : after.writer = store.writer
  bytes : ∀ segment ∈ store.sealed, (segmentBytes segment.id).Agrees store after

section Reading

variable {after : SegmentStore} {segment : SealedSegment}

theorem decompressedBlock_agrees (bytes : (segmentBytes segment.id).Agrees store after) :
    (decompressedBlock host segment).Agrees store after := by
  refine bytes.bind fun found => ?_
  dsimp only
  split_ifs
  · exact agrees_fail _
  · refine (agrees_ofExcept _).bind fun block => ?_
    split_ifs
    · exact agrees_fail _
    · exact agrees_pure _

theorem SameContents.entriesInAppendOrder (same : SameContents store after) :
    (entriesInAppendOrder host).Agrees store after := by
  have collected : (store.sealed.foldlM (collectEntries host) []).Agrees store after :=
    agrees_foldlM (fun segment member entries =>
      ((decompressedBlock_agrees (same.bytes segment member)).bind fun _ =>
        agrees_ofExcept _).bind fun _ => agrees_pure _) []
  obtain ⟨result, here, there⟩ := collected.bind fun sealedEntries =>
    (agrees_ofExcept (blockEntries host.blake3 store.writer.buffer)).bind fun unsealed =>
      agrees_pure (sealedEntries ++ unsealed)
  refine ⟨result, here, ?_⟩
  rw [SegmentStore.entriesInAppendOrder, get_bind, same.sealed, same.writer]
  exact there

theorem getFromSegments_agrees {hash : EntryHash} {segments : List SealedSegment}
    (bytes : ∀ segment ∈ segments, (segmentBytes segment.id).Agrees store after) :
    (getFromSegments host hash segments).Agrees store after := by
  induction segments with
  | nil => exact agrees_pure _
  | cons segment segments ih =>
    have first : (getFromSealed host hash segment).Agrees store after := by
      refine (decompressedBlock_agrees (bytes segment mem_cons_self)).bind fun block =>
        (agrees_ofExcept _).bind fun located => ?_
      cases located with
      | none => exact agrees_pure _
      | some offset =>
        exact (agrees_ofExcept _).bind fun _ => (agrees_ofExcept _).bind fun _ =>
          agrees_pure _
    refine first.bind fun found => ?_
    cases found with
    | none => exact ih fun other member => bytes other (mem_cons_of_mem _ member)
    | some entry => exact agrees_pure _

theorem SameContents.get (same : SameContents store after) (hash : EntryHash) :
    (get host hash).Agrees store after := by
  have sealed : (getFromSegments host hash store.sealed).Agrees store after :=
    getFromSegments_agrees same.bytes
  simp only [Action.Agrees, SegmentStore.get, get_bind, same.sealed, same.writer]
  cases store.writer.index.reverse.find? fun indexed => decide (indexed.1 = hash) with
  | none => exact sealed
  | some indexed => exact (agrees_ofExcept _).bind fun _ => agrees_pure _

end Reading

theorem Intact.segmentBytes_eq (intact : Intact host parts records store) {part : ArchiveRecord}
    (member : part ∈ parts) : segmentBytes part.1 store = (.ok part.2, store) := by
  refine segmentBytes_of_findsBytes intact.reliable ?_
  rw [intact.archived]
  exact intact.finds member

variable {segment : SealedSegment} {after : SegmentStore}

theorem Intact.part_of_mem (intact : Intact host parts records store)
    (member : segment ∈ store.sealed) : ∃ part ∈ parts, part.1 = segment.id := by
  have listed : segment.id ∈ parts.map Prod.fst := intact.listed ▸ mem_map_of_mem member
  exact mem_map.mp listed

theorem Intact.sameContents {updated : List ArchiveRecord}
    (intact : Intact host parts records store) (other : Intact host parts updated after)
    (sealed : after.sealed = store.sealed) (writer : after.writer = store.writer) :
    SameContents store after where
  sealed
  writer
  bytes segment member := by
    obtain ⟨part, listed, same⟩ := intact.part_of_mem member
    rw [← same]
    exact ⟨.ok part.2, intact.segmentBytes_eq listed, other.segmentBytes_eq listed⟩

/-! ## The newest segments -/

/-- The tail starts so that exactly the newest segments lie in it. -/
theorem newestTailStart_le (member : segment ∈ store.sealed)
    (ascending : (store.sealed.map (·.id)).Pairwise (· < ·)) : store.newestTailStart ≤ segment.id ↔
      (store.sealed.countP fun other => decide (segment.id < other.id)) < keepTail := by
  obtain ⟨front, rest, split⟩ := append_of_mem member
  have newer : (store.sealed.countP fun other => decide (segment.id < other.id)) = rest.length := by
    rw [split, map_append, map_cons, pairwise_append, pairwise_cons] at ascending
    obtain ⟨_, ⟨after, _⟩, before⟩ := ascending
    have below : front.countP (fun other => decide (segment.id < other.id)) = 0 :=
      countP_eq_zero.mpr fun other listed => by
        simpa using (before _ (mem_map_of_mem listed) _ mem_cons_self).le
    have above : rest.countP (fun other => decide (segment.id < other.id)) = rest.length :=
      countP_eq_length.mpr fun other listed => by simpa using after _ (mem_map_of_mem listed)
    rw [split, countP_append, countP_cons, below, above]
    simp
  have sorted : (store.sealed.map (·.id)).insertionSort (· ≤ ·) = store.sealed.map (·.id) :=
    (ascending.imp fun less => less.le).insertionSort_eq
  have length : store.sealed.length = front.length + (rest.length + 1) := by
    rw [split, length_append, length_cons]
  have here : (store.sealed.map (·.id))[front.length]? = some segment.id := by
    rw [split]
    simp
  obtain ⟨inside, found⟩ := List.getElem?_eq_some_iff.mp here
  have ordered := pairwise_iff_getElem.mp ascending
  rw [newer, newestTailStart, sorted, length_map, keepTail]
  split_ifs with few
  · have zero : (0 : UInt64) ≤ segment.id := UInt64.zero_le
    simp only [zero, true_iff]
    omega
  · have bound : store.sealed.length - 2 < (store.sealed.map (·.id)).length := by
      rw [length_map]
      omega
    rw [getD_eq_getElem _ _ bound]
    rcases lt_trichotomy (store.sealed.length - 2) front.length with less | same | more
    · have before := ordered _ _ bound inside less
      rw [found] at before
      exact iff_of_true before.le (by omega)
    · simp only [same, found]
      exact iff_of_true (le_refl _) (by omega)
    · have after := ordered _ _ inside bound more
      rw [found] at after
      exact iff_of_false (not_le.mpr after) (by omega)

/-! ## Placement -/

/-- The class leaves the segment a loose file: any under the hot class, under the warm class the fault
relevant and the newest. -/
def KeptLoose (store : SegmentStore) (segment : SealedSegment) : Prop :=
  match store.retention with
  | .hot => True
  | .warm => segment.containsFaultRelevant = true ∨
      (store.sealed.countP fun other => decide (segment.id < other.id)) < keepTail
  | .cold => False

/-- The archive file has a record of the segment. -/
def Archived (host : Host) (store : SegmentStore) (segment : SealedSegment) : Prop :=
  ∃ records, ArchiveStore.loaded host.blake3 store.dir.files = .ok records ∧ segment.id ∈ records.map Prod.fst

/-- Each segment is a loose file or in the archive, not both, as its class has it. -/
def Placed (host : Host) (store : SegmentStore) : Prop :=
  ∀ segment ∈ store.sealed, (store.KeptLoose segment ∧ (store.dir.files.lookup (.segment segment.id)).isSome ∧
      ¬store.Archived host segment) ∨
    (¬store.KeptLoose segment ∧ store.dir.files.lookup (.segment segment.id) = none ∧
      store.Archived host segment)

theorem Intact.keptLoose_iff (intact : Intact host parts records store) (member : segment ∈ store.sealed) :
    store.KeptLoose segment ↔ store.shouldKeepLoose segment store.newestTailStart = true := by
  have ascending : (store.sealed.map (·.id)).Pairwise (· < ·) :=
    intact.listed ▸ pairwise_map.mpr intact.ascending
  unfold KeptLoose shouldKeepLoose
  cases store.retention with
  | hot | cold => simp
  | warm =>
    simp only [Bool.or_eq_true, decide_eq_true_eq]
    rw [newestTailStart_le member ascending]

/-- The segments are whole and each is where its class has it. -/
structure Settled (host : Host) (parts records : List ArchiveRecord) (store : SegmentStore) : Prop
    extends Intact host parts records store where
  placed : ∀ segment ∈ store.sealed, segment.id ∈ records.map Prod.fst ↔ ¬store.KeptLoose segment
  removed : ∀ id ∈ records.map Prod.fst, store.dir.files.lookup (.segment id) = none

theorem Retained.settled (retained : Retained host parts records store after) :
    Settled host parts records after := by
  have sealed : after.sealed = store.sealed := by rw [retained.frame]
  have retention : after.retention = store.retention := by rw [retained.frame]
  have tailStart : after.newestTailStart = store.newestTailStart := by
    rw [newestTailStart, sealed, ← newestTailStart]
  refine { retained.toIntact with placed := fun segment member => ?_, removed := retained.removed }
  rw [retained.placed segment (sealed ▸ member), retained.toIntact.keptLoose_iff member,
    shouldKeepLoose, shouldKeepLoose, retention, tailStart]
  simp

theorem Settled.placed_only (settled : Settled host parts records store) : Placed host store := by
  intro segment member
  have archived : store.Archived host segment ↔ segment.id ∈ records.map Prod.fst := by
    refine ⟨fun ⟨found, loaded, listed⟩ => ?_, fun listed => ⟨records, settled.archive, listed⟩⟩
    cases settled.archive.symm.trans loaded
    exact listed
  have placed := settled.placed segment member
  by_cases kept : store.KeptLoose segment
  · have absent := placed.not.mpr (not_not.mpr kept)
    obtain ⟨part, listed, same⟩ := settled.part_of_mem member
    rw [← same] at absent
    refine .inl ⟨kept, ?_, fun found => absent (same ▸ archived.mp found)⟩
    rw [← same, (settled.loose part listed).resolve_left absent]
    rfl
  · have present := placed.mpr kept
    exact .inr ⟨kept, settled.removed _ present, archived.mpr present⟩

theorem Settled.unmoved (settled : Settled host parts records store)
    (unmoved : Unmoved store after) : Settled host parts records after where
  toIntact := settled.toIntact.unmoved unmoved
  placed segment member := by
    rw [KeptLoose, unmoved.retention, unmoved.sealed, ← KeptLoose]
    exact settled.placed segment (unmoved.sealed ▸ member)
  removed id archived := (unmoved.segments id).trans (settled.removed id archived)

theorem Settled.snoc (settled : Settled host parts records store) (hot : store.retention = .hot)
    {part : ArchiveRecord} (grown : Intact host (parts ++ [part]) records after)
    (retention : after.retention = store.retention) :
    Settled host (parts ++ [part]) records after := by
  have empty : records = [] := by
    refine eq_nil_iff_forall_not_mem.mpr fun record member => ?_
    have listed := mem_map_of_mem (f := Prod.fst) (settled.known record member)
    rw [← settled.listed] at listed
    obtain ⟨segment, segmentMember, same⟩ := mem_map.mp listed
    refine (settled.placed segment segmentMember).mp (same ▸ mem_map_of_mem member) ?_
    rw [KeptLoose, hot]
    trivial
  subst empty
  refine { grown with placed := fun segment _ => ?_, removed := nofun }
  rw [KeptLoose, retention, hot]
  simp

/-! ## Invariants of calls -/

/-- The file the writer is sealed into has a length in 64 bits. -/
def Storable (host : Host) (writer : SegmentWriter) : Prop :=
  (writer.sealedBytes host).length < 2 ^ 64

theorem whole_lasting (host : Host) : Lasting host (Storable host) (Whole host) where
  whole _ := id
  unmoved _ _ unmoved _ := fun ⟨parts, records, intact⟩ => ⟨parts, records, intact.unmoved unmoved⟩
  written _ _ _ := fun ⟨parts, records, intact⟩ => ⟨parts, records, { intact with }⟩
  retained := by
    rintro store retention ⟨parts, records, intact⟩
    obtain ⟨after, updated, ran, retained⟩ := retain_intact (intact.withRetention retention)
    rw [ran]
    exact ⟨parts, updated, retained.toIntact⟩
  sealed := by
    rintro store ⟨parts, records, intact⟩ short room
    by_cases empty : store.writer.isEmpty
    · rw [sealWriter, get_bind, if_pos empty]
      exact ⟨parts, records, intact⟩
    · obtain ⟨after, ran, grown, _⟩ := sealWriter_eq intact empty short room
      rw [ran]
      split_ifs
      · obtain ⟨final, updated, retains, retained⟩ := retain_intact grown
        rw [retains]
        exact ⟨_, updated, retained.toIntact⟩
      · exact ⟨_, _, grown⟩

theorem settled_lasting (host : Host) :
    Lasting host (Storable host) fun store => ∃ parts records, Settled host parts records store where
  whole _ := fun ⟨parts, records, settled⟩ => ⟨parts, records, settled.toIntact⟩
  unmoved _ _ unmoved _ := fun ⟨parts, records, settled⟩ => ⟨parts, records, settled.unmoved unmoved⟩
  written _ _ _ := fun ⟨parts, records, settled⟩ => ⟨parts, records, { settled with }⟩
  retained := by
    rintro store retention ⟨parts, records, settled⟩
    obtain ⟨after, updated, ran, retained⟩ := retain_intact (settled.withRetention retention)
    rw [ran]
    exact ⟨parts, updated, retained.settled⟩
  sealed := by
    rintro store ⟨parts, records, settled⟩ short room
    by_cases empty : store.writer.isEmpty
    · rw [sealWriter, get_bind, if_pos empty]
      exact ⟨parts, records, settled⟩
    · obtain ⟨after, ran, grown, _, _, retention, _⟩ := sealWriter_eq settled.toIntact empty short room
      rw [ran]
      split_ifs with cooled
      · obtain ⟨final, updated, retains, retained⟩ := retain_intact grown
        rw [retains]
        exact ⟨_, updated, retained.settled⟩
      · exact ⟨_, _, settled.snoc (not_not.mp cooled) grown retention⟩

/-! ## Convergence -/

theorem unread_whole (host : Host) : Whole host (unread (.ofFiles ∅)) :=
  ⟨_, _, (consistent_empty host).toKeeps.intact⟩

end SegmentStore

end Ldgr
