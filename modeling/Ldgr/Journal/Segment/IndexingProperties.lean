import Ldgr.Journal.Segment.Convergence

/-! A lookup answers as a scan of all entries would, whatever the sparse index leads it to first. -/

namespace Ldgr

open Base Format Action List SegmentWriter

/-! ## Frames of a block -/

variable {payload : Bytes} {payloads : List Bytes} {writer : SegmentWriter}

theorem mem_framedAt {offset start : Nat} :
    (offset, payload) ∈ framedAt start payloads ↔ ∃ front rest, payloads = front ++ payload :: rest ∧
      offset = start + (front.flatMap framed).length := by
  induction payloads generalizing start with
  | nil => simp [framedAt]
  | cons first payloads ih =>
    rw [framedAt, mem_cons, ih]
    constructor
    · rintro (same | ⟨front, rest, rfl, rfl⟩)
      · obtain ⟨rfl, rfl⟩ := Prod.mk.inj same
        exact ⟨[], payloads, rfl, rfl⟩
      · refine ⟨first :: front, rest, rfl, ?_⟩
        rw [flatMap_cons, length_append, Nat.add_assoc]
    · rintro ⟨front, rest, split, rfl⟩
      cases front with
      | nil =>
        obtain ⟨rfl, rfl⟩ := List.cons.inj split
        exact .inl rfl
      | cons head front =>
        obtain ⟨rfl, rfl⟩ := List.cons.inj split
        refine .inr ⟨front, rest, rfl, ?_⟩
        rw [flatMap_cons, length_append, Nat.add_assoc]

theorem framePayloadAt_of_nextFrame {block : Bytes} {offset stop : Nat}
    (next : nextFrame block offset = .ok (some (stop, payload))) : framePayloadAt block offset = .ok payload := by
  unfold nextFrame at next
  split_ifs at next with atEnd short small long
  all_goals simp only [Except.ok.injEq, Option.some.injEq, Prod.mk.injEq, reduceCtorEq] at next
  rw [framePayloadAt, if_neg short, if_neg long, next.2]

theorem framePayloadAt_framed (sized : ∀ payload ∈ payloads, Sized payload)
    {offset : Nat} (member : (offset, payload) ∈ framedAt 0 payloads) :
    framePayloadAt (payloads.flatMap framed) offset = .ok payload := by
  obtain ⟨front, rest, rfl, rfl⟩ := mem_framedAt.mp member
  rw [flatMap_append, flatMap_cons, Nat.zero_add]
  exact framePayloadAt_of_nextFrame (nextFrame_framed _ _ (sized payload (by simp)))

/-! ## Scans -/

/-- The payload starts with the hash. -/
def Holds (hash : EntryHash) (payload : Bytes) : Prop :=
  payload.take 32 = hash.digest.1

/-- From a frame on, a scan meets frames only. It finds one that holds the hash or, when it may go to
the end of the block, there is none. -/
theorem scanWindow_framed (sized : ∀ payload ∈ payloads, Sized payload)
    (front : Bytes) (stop : Nat) (hash : EntryHash) (fuel : Nat) :
    ∃ found, scanWindow (front ++ payloads.flatMap framed) stop hash fuel front.length = .ok found ∧
      (∀ offset, found = some offset →
        ∃ payload, (offset, payload) ∈ framedAt front.length payloads ∧ Holds hash payload) ∧
      (found = none → stop = (front ++ payloads.flatMap framed).length → payloads.length ≤ fuel →
        ∀ payload ∈ payloads, ¬Holds hash payload) := by
  induction payloads generalizing front fuel with
  | nil =>
    refine ⟨none, ?_, by simp, fun _ _ _ => forall_mem_nil _⟩
    cases fuel with
    | zero => rfl
    | succ fuel =>
      have ended : nextFrame (front ++ [].flatMap framed) front.length = .ok none := by
        rw [nextFrame, if_pos (by simp)]
      rw [scanWindow, ended]
      split_ifs <;> rfl
  | cons payload payloads ih =>
    cases fuel with
    | zero => exact ⟨none, rfl, by simp, fun _ _ enough => absurd enough (by simp)⟩
    | succ fuel =>
      have here := sized payload mem_cons_self
      have next := nextFrame_framed front (payloads.flatMap framed) here
      rw [scanWindow, flatMap_cons]
      by_cases inside : front.length + 8 ≤ stop
      swap
      · rw [if_neg inside]
        refine ⟨none, rfl, by simp, fun _ atEnd => absurd ?_ inside⟩
        rw [atEnd]
        simp only [length_append, length_framed]
        omega
      rw [if_pos inside, next]
      change ∃ found, (if 32 ≤ payload.length ∧ payload.take 32 = hash.digest.1 then
        .ok (some front.length) else scanWindow _ stop hash fuel _) = .ok found ∧ _
      split_ifs with matched
      · refine ⟨some front.length, rfl, ?_, by simp⟩
        rintro _ ⟨⟩
        exact ⟨payload, mem_cons_self, matched.2⟩
      · obtain ⟨found, scanned, sound, complete⟩ :=
          ih (fun other member => sized other (mem_cons_of_mem _ member)) (front ++ framed payload) fuel
        rw [length_append, append_assoc] at scanned
        rw [length_append] at sound
        refine ⟨found, scanned, fun offset same => ?_, fun none atEnd enough => ?_⟩
        · obtain ⟨other, member, holds⟩ := sound offset same
          exact ⟨other, mem_cons_of_mem _ member, holds⟩
        · have others := complete none (by rw [append_assoc]; exact atEnd) (Nat.le_of_succ_le_succ enough)
          refine forall_mem_cons.mpr ⟨fun holds => matched ⟨?_, holds⟩, others⟩
          exact Nat.le_trans (by decide) here.1

/-! ## Writers -/

/-- The writer's buffer holds the payloads, and its index each of them under the id it starts with. -/
structure Framed (payloads : List Bytes) (writer : SegmentWriter) : Prop where
  buffer : writer.buffer = payloads.flatMap framed
  index : List.Forall₂ (fun indexed frame => Holds indexed.1 frame.2 ∧ indexed.2.toNat = frame.1)
    writer.index (framedAt 0 payloads)
  sized : ∀ payload ∈ payloads, Sized payload

theorem framedAt_append (start : Nat) (payloads others : List Bytes) : framedAt start (payloads ++ others) =
      framedAt start payloads ++ framedAt (start + (payloads.flatMap framed).length) others := by
  induction payloads generalizing start with
  | nil => simp [framedAt]
  | cons payload payloads ih =>
    simp only [cons_append, framedAt, ih, flatMap_cons, length_append, Nat.add_assoc]

theorem framed_new : Framed [] .new :=
  ⟨rfl, .nil, forall_mem_nil _⟩

theorem Framed.push (frames : Framed payloads writer)
    (id : EntryHash) (dataLen : Nat) (payload : Bytes) (flag : Bool)
    (small : (writer.push id (writeFrame id dataLen payload) flag).buffer.length < 2 ^ 64) :
    Framed (payloads ++ [framePayload id dataLen payload])
      (writer.push id (writeFrame id dataLen payload) flag) := by
  have form := writeFrame_eq id dataLen payload
  have length : writer.buffer.length + (writeFrame id dataLen payload).length < 2 ^ 64 := by
    rw [← length_append]
    exact small
  refine ⟨?_, ?_, forall_mem_append.mpr ⟨frames.sized, forall_mem_singleton.mpr ⟨?_, ?_⟩⟩⟩
  · rw [SegmentWriter.push, frames.buffer, form, flatMap_append, flatMap_singleton]
  · rw [framedAt_append, Nat.zero_add, ← frames.buffer]
    refine rel_append frames.index (.cons ⟨?_, ?_⟩ .nil)
    · exact take_left' id.digest.2
    · exact UInt64.toNat_ofNat_of_lt' (Nat.lt_of_le_of_lt (Nat.le_add_right ..) length)
  · rw [length_framePayload]
    exact Nat.le_add_right ..
  · rw [form, length_framed] at length
    omega

theorem Framed.sample (frames : Framed payloads writer)
    {sample : UInt64 × UInt32} (member : sample ∈ writer.samples) :
    ∃ payload, (sample.1.toNat, payload) ∈ framedAt 0 payloads := by
  obtain ⟨⟨⟨id, offset⟩, position⟩, listed, chosen⟩ := mem_filterMap.mp member
  have indexed : (id, offset) ∈ writer.index := fst_mem_of_mem_zipIdx listed
  dsimp only at chosen
  split_ifs at chosen
  cases chosen
  obtain ⟨⟨_, payload⟩, framed, _, rfl⟩ := (forall₂_mem frames.index).1 _ indexed
  exact ⟨payload, framed⟩

/-- What locating a hash among payloads may answer. -/
def Locates (payloads : List Bytes) (hash : EntryHash) : Option Nat → Prop
  | none => ∀ payload ∈ payloads, ¬Holds hash payload
  | some offset => ∃ payload, (offset, payload) ∈ framedAt 0 payloads ∧ Holds hash payload

theorem locateInBlock_framed
    (frames : Framed payloads writer) (hash : EntryHash) {samples : List (UInt64 × UInt32)}
    (listed : samples ⊆ writer.samples) :
    ∃ found, locateInBlock writer.buffer hash samples = .ok found ∧ Locates payloads hash found := by
  induction samples with
  | nil =>
    obtain ⟨found, scanned, sound, complete⟩ := scanWindow_framed frames.sized []
      writer.buffer.length hash writer.buffer.length
    rw [nil_append, ← frames.buffer, length_nil] at scanned
    refine ⟨found, scanned, ?_⟩
    cases found with
    | some offset => exact sound offset rfl
    | none =>
      refine complete rfl (by rw [nil_append, frames.buffer]) ?_
      rw [frames.buffer]
      exact length_le_of_framed payloads
  | cons sample samples ih =>
    obtain ⟨offset, front⟩ := sample
    have rest := ih fun other member => listed (mem_cons_of_mem _ member)
    rw [locateInBlock]
    split_ifs with apart
    · exact rest
    · obtain ⟨payload, member⟩ := frames.sample (listed mem_cons_self)
      obtain ⟨before, after, split, start⟩ := mem_framedAt.mp member
      rw [Nat.zero_add] at start
      have sized : ∀ other ∈ payload :: after, Sized other := fun other later =>
        frames.sized other (split ▸ mem_append_right _ later)
      obtain ⟨found, scanned, sound, _⟩ := scanWindow_framed sized (before.flatMap framed)
        ((samples.head?.map fun sample => sample.1.toNat).getD writer.buffer.length) hash
        writer.buffer.length
      rw [← flatMap_append, ← split, ← frames.buffer, ← start] at scanned
      dsimp only at scanned ⊢
      cases found with
      | none =>
        obtain ⟨located, ran, answers⟩ := rest
        refine ⟨located, ?_, answers⟩
        rw [← ran, scanned]
        rfl
      | some position =>
        refine ⟨some position, by rw [scanned]; rfl, ?_⟩
        obtain ⟨other, later, holds⟩ := sound position rfl
        refine ⟨other, ?_, holds⟩
        rw [split, framedAt_append, Nat.zero_add]
        exact mem_append_right _ later

/-! ## Answers -/

theorem holds_of_decoded {blake3 : Bytes → EntryHash} {entry : Entry}
    (decoded : decodeFramePayload blake3 payload = .ok entry) : Holds entry.id payload := by
  simp only [decodeFramePayload] at decoded
  split_ifs at decoded
  obtain ⟨data, _, rest⟩ := except_bind_eq_ok.mp decoded
  obtain ⟨clock, _, made⟩ := except_bind_eq_ok.mp rest
  cases made
  rfl

theorem eq_of_holds {left right : EntryHash} (first : Holds left payload)
    (second : Holds right payload) : left = right := by
  obtain ⟨left⟩ := left
  obtain ⟨right⟩ := right
  exact congrArg EntryHash.mk (Subtype.ext (first.symm.trans second))

/-- What a lookup among entries may answer. -/
def Answers (entries : List Entry) (hash : EntryHash) : Option Entry → Prop
  | none => ∀ entry ∈ entries, entry.id ≠ hash
  | some entry => entry ∈ entries ∧ entry.id = hash

theorem Locates.answers {blake3 : Bytes → EntryHash} {entries : List Entry}
    (sized : ∀ payload ∈ payloads, Sized payload)
    (decoded : payloads.mapM (decodeFramePayload blake3) = .ok entries) {hash : EntryHash}
    {found : Option Nat} (locates : Locates payloads hash found) : match found with
    | none => Answers entries hash none
    | some offset => ∃ payload entry, framePayloadAt (payloads.flatMap framed) offset = .ok payload ∧
        decodeFramePayload blake3 payload = .ok entry ∧ Answers entries hash (some entry) := by
  have each := forall₂_mem (except_mapM_eq_ok.mp decoded)
  cases found with
  | none =>
    intro entry member same
    obtain ⟨payload, listed, read⟩ := each.2 entry member
    exact locates payload listed (same ▸ holds_of_decoded read)
  | some offset =>
    obtain ⟨payload, member, holds⟩ := locates
    have listed : payload ∈ payloads := by
      rw [← map_snd_framedAt 0 payloads]
      exact mem_map_of_mem member
    obtain ⟨entry, found, read⟩ := each.1 payload listed
    exact ⟨payload, entry, framePayloadAt_framed sized member, read, found,
      eq_of_holds (holds_of_decoded read) holds⟩

namespace SegmentStore

variable {store : SegmentStore} {host : Host}

/-- A segment of the store as it was sealed: the writer it was made of, and its payloads. -/
structure Indexed (host : Host) (blocks : List (UInt64 × SegmentWriter)) (records : List ArchiveRecord)
    (store : SegmentStore) : Prop where
  intact : Intact host (blocks.map fun block => (block.1, block.2.sealedBytes host)) records store
  sealed : store.sealed = blocks.map fun block => block.2.metadata host block.1
  framed : ∀ block ∈ blocks, ∃ payloads, Framed payloads block.2
  writer : ∃ payloads, Framed payloads store.writer

variable {writer : SegmentWriter} {entries : List Entry}

theorem decompressedBlock_sealed (lawful : host.Lawful) {id : UInt64}
    (short : (writer.sealedBytes host).length < 2 ^ 64)
    (bytes : segmentBytes id store = (.ok (writer.sealedBytes host), store)) {block : Bytes}
    {after : SegmentStore}
    (read : decompressedBlock host (writer.metadata host id) store = (.ok block, after)) :
    block = writer.buffer ∧ after = store := by
  rw [length_sealedBytes] at short
  have start : (writer.metadata host id).dataOffset.toNat =
      framePrefixLen + (writer.header host.blake3).length :=
    UInt64.toNat_ofNat_of_lt' (by show _ < 2 ^ 64; omega)
  have size : (writer.metadata host id).compressedLen.toNat = (host.encodeAll writer.buffer).length :=
    UInt64.toNat_ofNat_of_lt' (by show _ < 2 ^ 64; omega)
  obtain ⟨found, between, fetched, rest⟩ := bind_eq_ok.mp read
  cases bytes.symm.trans fetched
  rw [start, size, slice_compressed] at rest
  rw [if_neg (by rw [length_sealedBytes]; omega)] at rest
  obtain ⟨decoded, _, decodes, checked⟩ := bind_eq_ok.mp rest
  obtain ⟨block, rfl⟩ := ofExcept_eq_ok.mp decodes
  obtain ⟨_, rfl⟩ := (decodeSegmentBlock_eq_ok lawful).mp block
  split_ifs at checked with whole
  · cases checked
  · cases checked
    exact ⟨rfl, rfl⟩

theorem getFromSealed_answers {id : UInt64} {payloads : List Bytes} (frames : Framed payloads writer)
    (read : decompressedBlock host (writer.metadata host id) store = (.ok writer.buffer, store))
    (decoded : payloads.mapM (decodeFramePayload host.blake3) = .ok entries) (hash : EntryHash) :
    ∃ found, getFromSealed host hash (writer.metadata host id) store = (.ok found, store) ∧
      Answers entries hash found := by
  obtain ⟨found, located, locates⟩ := locateInBlock_framed frames hash (List.Subset.refl writer.samples)
  have answers := locates.answers frames.sized decoded
  have first : getFromSealed host hash (writer.metadata host id) store = _ := bind_of_ok read
  have second : locateInBlock writer.buffer hash (writer.metadata host id).samples = .ok found := located
  rw [second, ofExcept_ok_bind] at first
  cases found with
  | none => exact ⟨none, first, answers⟩
  | some offset =>
    obtain ⟨payload, entry, payloadAt, entryOf, answer⟩ := answers
    refine ⟨some entry, first.trans ?_, answer⟩
    dsimp only
    rw [frames.buffer, payloadAt, ofExcept_ok_bind, entryOf, ofExcept_ok_bind, if_pos answer.2]
    rfl

theorem foldlM_collectEntries_eq_ok {segments : List SealedSegment} {before all : List Entry}
    {after : SegmentStore}
    (still : ∀ segment ∈ segments, ∀ block between,
      decompressedBlock host segment store = (.ok block, between) → between = store)
    (read : segments.foldlM (collectEntries host) before store = (.ok all, after)) :
    ∃ lists, all = before ++ lists.flatten ∧ List.Forall₂ (fun segment entries =>
      ∃ block, decompressedBlock host segment store = (.ok block, store) ∧
        blockEntries host.blake3 block = .ok entries) segments lists := by
  induction segments generalizing before with
  | nil =>
    cases read
    exact ⟨[], by simp, .nil⟩
  | cons segment segments ih =>
    rw [foldlM_cons] at read
    obtain ⟨_, between, collected, rest⟩ := bind_eq_ok.mp read
    obtain ⟨entries, _, found, made⟩ := bind_eq_ok.mp collected
    cases made
    obtain ⟨block, middle, fetched, walked⟩ := bind_eq_ok.mp found
    cases still segment mem_cons_self block middle fetched
    obtain ⟨decoded, rfl⟩ := ofExcept_eq_ok.mp walked
    obtain ⟨lists, rfl, each⟩ :=
      ih (fun other member => still other (mem_cons_of_mem _ member)) rest
    exact ⟨entries :: lists, by simp, .cons ⟨block, fetched, decoded⟩ each⟩

theorem getFromSegments_answers {segments : List SealedSegment} {lists : List (List Entry)}
    {hash : EntryHash} (each : List.Forall₂ (fun segment entries =>
      ∃ found, getFromSealed host hash segment store = (.ok found, store) ∧
        Answers entries hash found) segments lists) :
    ∃ found, getFromSegments host hash segments store = (.ok found, store) ∧
      Answers lists.flatten hash found := by
  induction each with
  | nil => exact ⟨none, rfl, forall_mem_nil _⟩
  | @cons segment entries segments lists here _ ih =>
    obtain ⟨first, found, answer⟩ := here
    obtain ⟨second, others, rest⟩ := ih
    rw [flatten_cons]
    have ran : getFromSegments host hash (segment :: segments) store = _ := bind_of_ok found
    cases first with
    | some entry => exact ⟨some entry, ran, mem_append_left _ answer.1, answer.2⟩
    | none =>
      refine ⟨second, ran.trans others, ?_⟩
      cases second with
      | some entry => exact ⟨mem_append_right _ rest.1, rest.2⟩
      | none => exact forall_mem_append.mpr ⟨answer, rest⟩

theorem getFromWriter_answers {payloads : List Bytes} (frames : Framed payloads writer)
    (decoded : payloads.mapM (decodeFramePayload host.blake3) = .ok entries) (hash : EntryHash) :
    match writer.index.reverse.find? fun indexed => decide (indexed.1 = hash) with
    | none => Answers entries hash none
    | some (_, offset) => ∃ entry, getFromWriter host writer offset = .ok entry ∧
        Answers entries hash (some entry) := by
  cases found : writer.index.reverse.find? fun indexed => decide (indexed.1 = hash) with
  | none =>
    have absent : Locates payloads hash none := by
      intro payload member holds
      rw [← map_snd_framedAt 0 payloads] at member
      obtain ⟨frame, listed, rfl⟩ := mem_map.mp member
      obtain ⟨indexed, inside, same, _⟩ := (forall₂_mem frames.index).2 frame listed
      exact List.find?_eq_none.mp found _ (mem_reverse.mpr inside) (by simpa using eq_of_holds same holds)
    exact absent.answers frames.sized decoded
  | some indexed =>
    obtain ⟨id, offset⟩ := indexed
    have same : id = hash := by simpa using List.find?_some found
    have listed := mem_reverse.mp (mem_of_find?_eq_some found)
    obtain ⟨⟨_, payload⟩, framed, holds, rfl⟩ := (forall₂_mem frames.index).1 _ listed
    have located : Locates payloads hash (some offset.toNat) := ⟨payload, framed, same ▸ holds⟩
    obtain ⟨payload, entry, payloadAt, entryOf, answer⟩ := located.answers frames.sized decoded
    refine ⟨entry, ?_, answer⟩
    rw [getFromWriter, frames.buffer, payloadAt]
    exact entryOf

theorem Indexed.get_answers (lawful : host.Lawful) {blocks : List (UInt64 × SegmentWriter)}
    {records : List ArchiveRecord} (indexed : Indexed host blocks records store)
    (read : (entriesInAppendOrder host store).1 = .ok entries) (hash : EntryHash) :
    ∃ found, get host hash store = (.ok found, store) ∧ Answers entries hash found := by
  have bytes : ∀ block ∈ blocks, segmentBytes block.1 store = (.ok (block.2.sealedBytes host), store) :=
    fun block member => indexed.intact.segmentBytes_eq (mem_map_of_mem member)
  have blockRead {block : UInt64 × SegmentWriter} (member : block ∈ blocks) {found : Bytes}
      {after : SegmentStore}
      (fetched : decompressedBlock host (block.2.metadata host block.1) store = (.ok found, after)) :
      found = block.2.buffer ∧ after = store :=
    decompressedBlock_sealed lawful (indexed.intact.short _ (mem_map_of_mem member))
      (bytes block member) fetched
  have still : ∀ segment ∈ store.sealed, ∀ block between,
      decompressedBlock host segment store = (.ok block, between) → between = store := by
    rw [indexed.sealed]
    exact forall_mem_map.mpr fun block member found between fetched => (blockRead member fetched).2
  have ran : entriesInAppendOrder host store = (.ok entries, (entriesInAppendOrder host store).2) :=
    Prod.ext read rfl
  generalize (entriesInAppendOrder host store).2 = after at ran
  rw [entriesInAppendOrder, get_bind] at ran
  obtain ⟨sealedEntries, _, collected, rest⟩ := bind_eq_ok.mp ran
  obtain ⟨tail, _, walk, made⟩ := bind_eq_ok.mp rest
  have walked := (ofExcept_eq_ok.mp walk).1
  cases made
  obtain ⟨lists, rfl, each⟩ := foldlM_collectEntries_eq_ok still collected
  rw [nil_append]
  have sealedAnswers : ∃ found, getFromSegments host hash store.sealed store = (.ok found, store) ∧
      Answers lists.flatten hash found := by
    refine getFromSegments_answers ?_
    rw [indexed.sealed, forall₂_map_left_iff] at each ⊢
    have within := (forall₂_and_left _ _).mpr ⟨fun block member => member, each⟩
    refine within.imp fun block entries holds => ?_
    obtain ⟨member, found, fetched, decoded⟩ := holds
    obtain ⟨rfl, _⟩ := blockRead member fetched
    obtain ⟨payloads, frames⟩ := indexed.framed block member
    rw [frames.buffer, blockEntries_framed frames.sized] at decoded
    exact getFromSealed_answers frames fetched decoded hash
  obtain ⟨payloads, frames⟩ := indexed.writer
  rw [frames.buffer, blockEntries_framed frames.sized] at walked
  have writerAnswers := getFromWriter_answers frames walked hash
  rw [get, get_bind]
  cases found : store.writer.index.reverse.find? fun indexed => decide (indexed.1 = hash) with
  | some indexed =>
    rw [found] at writerAnswers
    obtain ⟨entry, fetched, answer⟩ := writerAnswers
    refine ⟨some entry, ?_, mem_append_right _ answer.1, answer.2⟩
    dsimp only
    rw [fetched]
    rfl
  | none =>
    rw [found] at writerAnswers
    obtain ⟨first, fetched, answer⟩ := sealedAnswers
    refine ⟨first, fetched, ?_⟩
    cases first with
    | some entry => exact ⟨mem_append_left _ answer.1, answer.2⟩
    | none => exact forall_mem_append.mpr ⟨answer, writerAnswers⟩

/-! ## Runs -/

/-- The writer has a file, and its buffer offsets, in 64 bits. -/
def Addressable (host : Host) (writer : SegmentWriter) : Prop :=
  Storable host writer ∧ writer.buffer.length < 2 ^ 64

theorem indexed_lasting (host : Host) :
    Lasting host (fun writer => Storable host writer ∧ ∃ payloads, Framed payloads writer)
      fun store => ∃ blocks records, Indexed host blocks records store where
  whole _ := fun ⟨_, records, indexed⟩ => ⟨_, records, indexed.intact⟩
  unmoved _ _ unmoved same := fun ⟨blocks, records, indexed⟩ =>
    ⟨blocks, records, indexed.intact.unmoved unmoved, unmoved.sealed.trans indexed.sealed,
      indexed.framed, same ▸ indexed.writer⟩
  written _ _ admitted := fun ⟨blocks, records, indexed⟩ =>
    ⟨blocks, records, { indexed.intact with }, indexed.sealed, indexed.framed, admitted.2⟩
  retained := by
    rintro store retention ⟨blocks, records, indexed⟩
    obtain ⟨after, updated, ran, retained⟩ := retain_intact (indexed.intact.withRetention retention)
    have sealed : after.sealed = store.sealed := by rw [retained.frame]
    have writer : after.writer = store.writer := by rw [retained.frame]
    rw [ran]
    exact ⟨blocks, updated, retained.toIntact, sealed.trans indexed.sealed, indexed.framed,
      writer ▸ indexed.writer⟩
  sealed := by
    rintro store ⟨blocks, records, indexed⟩ ⟨short, framed⟩ room
    by_cases empty : store.writer.isEmpty
    · rw [sealWriter, get_bind, if_pos empty]
      exact ⟨blocks, records, indexed⟩
    obtain ⟨after, ran, grown, sealed, fresh, _⟩ := sealWriter_eq indexed.intact empty short room
    have listed : Indexed host (blocks ++ [(store.nextSegmentId, store.writer)]) records after :=
      { intact := by rwa [map_append]
        sealed := by rw [sealed, indexed.sealed, map_append]; rfl
        framed := forall_mem_append.mpr ⟨indexed.framed, forall_mem_singleton.mpr framed⟩
        writer := ⟨[], fresh ▸ framed_new⟩ }
    rw [ran]
    split_ifs
    · obtain ⟨final, updated, retains, retained⟩ := retain_intact listed.intact
      have sealed : final.sealed = after.sealed := by rw [retained.frame]
      have writer : final.writer = after.writer := by rw [retained.frame]
      rw [retains]
      exact ⟨_, updated, retained.toIntact, sealed.trans listed.sealed, listed.framed, writer ▸ listed.writer⟩
    · exact ⟨_, records, listed⟩

end SegmentStore

namespace SegmentWriter

/-- Frames have been pushed one after the other. -/
inductive Pushed (writer : SegmentWriter) : SegmentWriter → Prop where
  | none : Pushed writer writer
  | push {between : SegmentWriter} (pushed : Pushed writer between) (id : EntryHash) (dataLen : Nat)
      (payload : Bytes) (flag : Bool) : Pushed writer (between.push id (writeFrame id dataLen payload) flag)

variable {writer after : SegmentWriter}

theorem pushed_append (entry : Entry) (writer : SegmentWriter) : Pushed writer (append entry writer).2 := by
  rw [append]
  cases encoded : encodeEntryFrame entry with
  | error fault => exact .none
  | ok frame =>
    obtain ⟨data, _, rfl⟩ := encodeEntryFrame_eq_ok.mp encoded
    exact Pushed.none.push ..

theorem pushed_appendSlice (entries : List Entry) {between : SegmentWriter} (pushed : Pushed writer between) :
    Pushed writer (appendSlice entries between).2 := by
  induction entries generalizing between with
  | nil => exact pushed
  | cons entry entries ih =>
    rw [appendSlice]
    cases encodeEntryPayload entry with
    | error fault => exact pushed
    | ok parts => exact ih (pushed.push ..)

theorem pushed_appendFrames (frames : List EntryFrame) {between : SegmentWriter} (pushed : Pushed writer between) :
    Pushed writer (between.appendFrames frames) := by
  induction frames generalizing between with
  | nil => exact pushed
  | cons frame frames ih => exact ih (pushed.push ..)

theorem Pushed.framed (pushed : Pushed writer after) (frames : ∃ payloads, Framed payloads writer)
    (small : after.buffer.length < 2 ^ 64) : ∃ payloads, Framed payloads after := by
  induction pushed with
  | none => exact frames
  | push pushed id dataLen payload flag ih =>
    have shorter := small
    rw [SegmentWriter.push, length_append] at shorter
    obtain ⟨payloads, framed⟩ := ih (by omega)
    exact ⟨_, framed.push id dataLen payload flag small⟩

end SegmentWriter

theorem StoreCall.pushed_writer (store : SegmentStore) (call : StoreCall) :
    Pushed store.writer (call.writer store) := by
  cases call with
  | retain => exact .none
  | appendFrames list => exact pushed_appendFrames list .none
  | operate operation =>
    cases operation with
    | append entry => exact pushed_append entry _
    | appendSlice entries => exact pushed_appendSlice entries .none
    | appendFrames entries =>
      rw [StoreCall.writer]
      cases entries.mapM Entry.batchFrame with
      | error fault => exact .none
      | ok list => exact pushed_appendFrames list .none
    | sealWriter | writeManifest | setRetention _ => exact .none

namespace SegmentStore

variable {store : SegmentStore} {host : Host}

theorem indexed_afterCalls (indexed : ∃ blocks records, Indexed host blocks records store)
    {calls : List StoreCall} (within : Within host (Addressable host) store calls) :
    ∃ blocks records, Indexed host blocks records (afterCalls host store calls) := by
  induction calls generalizing store with
  | nil => exact indexed
  | cons call calls ih =>
    obtain ⟨⟨⟨short, small⟩, room⟩, rest⟩ := within
    obtain ⟨blocks, records, held⟩ := id indexed
    refine ih ((indexed_lasting host).perform indexed ⟨⟨short, ?_⟩, room⟩) rest
    exact (call.pushed_writer store).framed held.writer small

theorem unread_indexed (host : Host) : Indexed host [] [] (unread (.ofFiles ∅)) where
  intact := (consistent_empty host).toKeeps.intact
  sealed := rfl
  framed := forall_mem_nil _
  writer := ⟨[], framed_new⟩

end SegmentStore

end Ldgr
