import Ldgr.Journal.Segment.Bounds
import Ldgr.Journal.Segment.Operations

/-! From the entries given to a writer to the file it is sealed into and back. -/

namespace Ldgr

open Base Format Entry Action

/-! ## Writers -/

theorem Entry.frame_of_payload {entry : Entry} {dataLen : Nat} {payload : Bytes}
    (encoded : encodeEntryPayload entry = .ok (dataLen, payload)) :
    encodeEntryFrame entry = .ok entry.frame ∧ entry.frame = writeFrame entry.id dataLen payload := by
  have framed : encodeEntryFrame entry = .ok (writeFrame entry.id dataLen payload) := by
    rw [encodeEntryFrame, encoded]
    rfl
  have same : entry.frame = writeFrame entry.id dataLen payload := by
    rw [frame, framed]
    rfl
  exact ⟨same ▸ framed, same⟩

namespace SegmentWriter

/-- The writer has been given the entries, in order, by any of its calls. -/
inductive Given : List Entry → SegmentWriter → Prop where
  | new : Given [] new
  | append {entries : List Entry} {entry : Entry} {writer after : SegmentWriter} {frame : Bytes} :
      Given entries writer → append entry writer = (.ok frame, after) → Given (entries ++ [entry]) after
  | appendSlice {entries more : List Entry} {writer after : SegmentWriter} :
      Given entries writer → appendSlice more writer = (.ok (), after) → Given (entries ++ more) after
  | appendFrames {entries more : List Entry} {writer : SegmentWriter} {frames : List EntryFrame} :
      Given entries writer → more.mapM batchFrame = .ok frames →
      Given (entries ++ more) (writer.appendFrames frames)

/-- The writer holds the frames of entries that could be encoded. -/
def Holds (entries : List Entry) (writer : SegmentWriter) : Prop :=
  writer = holding entries ∧ ∀ entry ∈ entries, encodeEntryFrame entry = .ok entry.frame

variable {entries : List Entry} {writer : SegmentWriter}

theorem Holds.push (holds : Holds entries writer)
    {entry : Entry} (encodes : encodeEntryFrame entry = .ok entry.frame) :
    Holds (entries ++ [entry]) (writer.push entry.id entry.frame (kindIsFaultRelevant entry.data.kind)) := by
  obtain ⟨rfl, all⟩ := holds
  refine ⟨push_holding entries entry, ?_⟩
  exact List.forall_mem_append.mpr ⟨all, List.forall_mem_singleton.mpr encodes⟩

theorem Holds.append {entry : Entry} {writer after : SegmentWriter} {frame : Bytes}
    (holds : Holds entries writer) (appended : append entry writer = (.ok frame, after)) :
    Holds (entries ++ [entry]) after := by
  cases encoded : encodeEntryFrame entry with
  | error fault =>
    rw [SegmentWriter.append, encoded] at appended
    cases appended
  | ok found =>
    have same : entry.frame = found := by
      rw [Entry.frame, encoded]
      rfl
    rw [SegmentWriter.append, encoded, ofExcept_ok_bind, modify_bind, ← same] at appended
    cases appended
    exact holds.push (same ▸ encoded)

theorem Holds.appendSlice {entries more : List Entry} {writer after : SegmentWriter}
    (holds : Holds entries writer) (appended : appendSlice more writer = (.ok (), after)) :
    Holds (entries ++ more) after := by
  induction more generalizing entries writer with
  | nil =>
    cases appended
    rwa [List.append_nil]
  | cons entry more ih =>
    cases encoded : encodeEntryPayload entry with
    | error fault =>
      rw [SegmentWriter.appendSlice, encoded] at appended
      cases appended
    | ok parts =>
      obtain ⟨encodes, framed⟩ := frame_of_payload encoded
      rw [SegmentWriter.appendSlice, encoded, ofExcept_ok_bind] at appended
      dsimp only at appended
      rw [modify_bind, ← framed] at appended
      have rest := ih (holds.push encodes) appended
      rwa [List.append_assoc] at rest

theorem Holds.appendFrames {entries more : List Entry} {frames : List EntryFrame}
    (holds : Holds entries writer) (mapped : more.mapM batchFrame = .ok frames) :
    Holds (entries ++ more) (writer.appendFrames frames) := by
  have listed := except_mapM_eq_ok.mp mapped
  clear mapped
  induction listed generalizing entries writer with
  | nil => rwa [List.append_nil]
  | @cons entry frame more frames first _ ih =>
    cases encoded : encodeEntryPayload entry with
    | error fault =>
      rw [batchFrame, encoded] at first
      cases first
    | ok parts =>
      obtain ⟨encodes, framed⟩ := frame_of_payload encoded
      rw [batchFrame, encoded] at first
      obtain rfl := Except.ok.inj first
      have rest := ih (holds.push encodes)
      rw [framed, List.append_assoc] at rest
      exact rest

theorem Given.holds (given : Given entries writer) : Holds entries writer := by
  induction given with
  | new => exact ⟨rfl, List.forall_mem_nil _⟩
  | append _ appended ih => exact ih.append appended
  | appendSlice _ appended ih => exact ih.appendSlice appended
  | appendFrames _ mapped ih => exact ih.appendFrames mapped

end SegmentWriter

/-! ## Blocks -/

/-- The address covers the encoded data and clock, and the decoder's checks accept the data. -/
def Entry.Genuine (blake3 : Bytes → EntryHash) (entry : Entry) : Prop :=
  ∃ encoded, entry.data.tryCanonicalBytes = .ok encoded ∧
    entry.id = blake3 (encoded ++ entry.vectorClock.encode) ∧ entry.data.Valid

theorem Entry.readable_iff_genuine {blake3 : Bytes → EntryHash} {entry : Entry} :
    entry.Readable blake3 ↔ entry.Genuine blake3 := by
  constructor
  · intro readable
    obtain ⟨encoded, canonical, _⟩ := encodeEntryFrame_eq_ok.mp readable.encodes
    have address := ((reread_eq_ok canonical).mp readable.reread).1
    exact ⟨encoded, canonical, address, (readable_iff canonical address).mp readable⟩
  · rintro ⟨encoded, canonical, address, valid⟩
    exact (readable_iff canonical address).mpr valid

/-- A block of frames yields its entries exactly when each of them can be read back. -/
theorem blockEntries_frames_iff {blake3 : Bytes → EntryHash} {entries : List Entry}
    (encodes : Encoded entries) :
    blockEntries blake3 (entries.flatMap frame) = .ok entries ↔
      ∀ entry ∈ entries, entry.Readable blake3 := by
  rw [blockEntries_encoded encodes, except_mapM_eq_ok, List.forall₂_same]
  refine forall₂_congr fun entry member => ⟨fun reread => ?_, Entry.Readable.reread⟩
  exact readable_of_reread (encodes entry member) (encodes entry member) reread reread

/-! ## Files -/

theorem lookup_of_replace {ν : Type} [DecidableEq ν] {dir after : Directory ν} {temporary target : ν}
    {bytes : Bytes} {result : Unit}
    (replaced : Directory.replace temporary target bytes dir = (.ok result, after)) :
    after.files.lookup target = some bytes := by
  obtain ⟨_, created, making, replaced⟩ := bind_eq_ok.mp replaced
  obtain ⟨_, written, appending, replaced⟩ := bind_eq_ok.mp replaced
  obtain ⟨_, synced, syncing, renamed⟩ := bind_eq_ok.mp replaced
  have content := Directory.lookup_of_append appending (Directory.lookup_of_create making)
  obtain ⟨_, _, _, _, rfl⟩ := Directory.onFile_eq_ok.mp syncing
  obtain ⟨_, found, same, _, rfl⟩ := Directory.onFile_eq_ok.mp renamed
  cases content.symm.trans same
  exact AList.lookup_insert _

namespace SegmentWriter

variable {host : Host}

theorem sealSegment_eq_ok {writer : SegmentWriter} {id : UInt64} {disk after : Disk}
    {segment : SealedSegment} (sealed : writer.sealSegment host id disk = (.ok segment, after)) :
    after.files.lookup (.segment id) = some (writer.sealedBytes host) ∧ segment = writer.metadata host id := by
  obtain ⟨_, _, replaced, done⟩ := bind_eq_ok.mp sealed
  have written := lookup_of_replace (mapError_eq_ok.mp replaced)
  cases done
  exact ⟨written, rfl⟩

/-- What the file is parsed to agrees with the metadata of sealing, up to the flag that no file
keeps, and its block yields the entries. -/
def ReadsBack (host : Host) (id : UInt64) (entries : List Entry) (described : SealedSegment)
    (bytes : Bytes) : Prop :=
  ∃ segment block, parseSegmentBytes host bytes id = .ok (some segment) ∧
    { segment with containsFaultRelevant := described.containsFaultRelevant } = described ∧
    decodeSegmentBlock host (slice bytes segment.dataOffset.toNat segment.compressedLen.toNat) = .ok block ∧
    blockEntries host.blake3 block = .ok entries

theorem dataOffset_metadata (host : Host) (writer : SegmentWriter) (id : UInt64) :
    (writer.metadata host id).dataOffset.toNat = framePrefixLen + (writer.header host.blake3).length := by
  have small := writer.length_header_le host.blake3
  exact UInt64.toNat_ofNat_of_lt' (by show _ < 2 ^ 64; rw [framePrefixLen]; omega)

theorem block_metadata (lawful : host.Lawful) {writer : SegmentWriter} (id : UInt64)
    (fits : host.Fits writer.buffer) :
    decodeSegmentBlock host (slice (writer.sealedBytes host) (writer.metadata host id).dataOffset.toNat
      (writer.metadata host id).compressedLen.toNat) = .ok writer.buffer := by
  have small := fits.1
  rw [maxCompressedSegmentBytes] at small
  have length : (writer.metadata host id).compressedLen.toNat = (host.encodeAll writer.buffer).length :=
    UInt64.toNat_ofNat_of_lt' (by show _ < 2 ^ 64; omega)
  rw [dataOffset_metadata, length, slice_compressed]
  exact (decodeSegmentBlock_eq_ok lawful).mpr ⟨fits, rfl⟩

theorem readsBack_iff (lawful : host.Lawful) {entries : List Entry} {id : UInt64}
    (encodes : Encoded entries)
    (fits : host.Fits (holding entries).buffer) :
    ReadsBack host id entries ((holding entries).metadata host id)
        ((holding entries).sealedBytes host) ↔ ∀ entry ∈ entries, entry.Genuine host.blake3 := by
  simp only [← readable_iff_genuine]
  constructor
  · rintro ⟨segment, block, _, described, decoded, collected⟩
    have offset : segment.dataOffset = ((holding entries).metadata host id).dataOffset :=
      congrArg (·.dataOffset) described
    have length : segment.compressedLen = ((holding entries).metadata host id).compressedLen :=
      congrArg (·.compressedLen) described
    rw [offset, length, block_metadata lawful id fits] at decoded
    cases decoded
    exact (blockEntries_frames_iff encodes).mp collected
  · intro readable
    exact ⟨_, _, (parseSegmentBytes_holding lawful readable).mpr ⟨fits, rfl⟩, rfl,
      block_metadata lawful id fits, (blockEntries_frames_iff encodes).mpr readable⟩

/-- A sealed file within the caps reads back exactly when every entry is genuine; on no bytes at all
does the parser leave its input or run on. -/
theorem sealedFile_readsBack_iff {host : Host} (lawful : host.Lawful) {entries : List Entry}
    {writer : SegmentWriter} (given : Given entries writer) (fits : host.Fits writer.buffer)
    {id : UInt64} {disk after : Disk} {described : SealedSegment}
    (sealed : writer.sealSegment host id disk = (.ok described, after)) :
    ((∃ bytes, after.files.lookup (.segment id) = some bytes ∧
        ReadsBack host id entries described bytes) ↔ ∀ entry ∈ entries, entry.Genuine host.blake3) ∧
      ∀ bytes : Bytes, bytes.length < 2 ^ 64 →
        Checked.parseSegmentBytes host bytes id = .ofExcept (parseSegmentBytes host bytes id) := by
  obtain ⟨rfl, encodes⟩ := given.holds
  obtain ⟨written, rfl⟩ := sealSegment_eq_ok sealed
  refine ⟨?_, fun bytes small => Checked.parseSegmentBytes_eq host id small⟩
  rw [← readsBack_iff lawful encodes fits]
  constructor
  · rintro ⟨bytes, found, back⟩
    cases written.symm.trans found
    exact back
  · exact fun back => ⟨_, written, back⟩

def single (entry : Entry) : SegmentWriter :=
  (append entry new).2

theorem given_single {entry : Entry} (encodes : (encodeEntryFrame entry).isOk) :
    Given [entry] (single entry) := by
  cases encoded : encodeEntryFrame entry with
  | error fault =>
    rw [encoded] at encodes
    cases encodes
  | ok frame =>
    have appended : append entry new = (.ok frame, (append entry new).2) := by
      rw [SegmentWriter.append, encoded]
      rfl
    exact .append .new appended

theorem single_sealed (entry : Entry) : ∃ after, (single entry).sealSegment plainHost 0 (.ofFiles ∅) =
      (.ok ((single entry).metadata plainHost 0), after) := by
  obtain ⟨after, replaced, _⟩ := Directory.replace_ofFiles ∅ (FileName.segmentTmp 0) (.segment 0)
    ((single entry).sealedBytes plainHost)
  refine ⟨_, bind_of_ok (mapError_eq_ok.mpr replaced)⟩

def partitioned : Entry :=
  .standalone (.fault (.partition ⟨1⟩ ⟨2⟩ true))

theorem partitioned_genuine : partitioned.Genuine plainHost.blake3 :=
  readable_iff_genuine.mp (standalone_readable ⟨nofun, nofun, nofun, nofun⟩ rfl)

theorem partitioned_readsBack : ∃ after : Disk, ∃ bytes, after.files.lookup (.segment 0) = some bytes ∧
      ReadsBack plainHost 0 [partitioned] ((single partitioned).metadata plainHost 0) bytes := by
  obtain ⟨after, sealed⟩ := single_sealed partitioned
  have fits : plainHost.Fits (single partitioned).buffer := by decide +kernel
  have found := (sealedFile_readsBack_iff plainHost_lawful (given_single (by decide +kernel)) fits
    sealed).1.mpr (List.forall_mem_singleton.mpr partitioned_genuine)
  exact ⟨after, found⟩

theorem error_of_refused {ε α : Type} {result : Except ε α} (refused : result.isOk = false) :
    ∃ fault, result = .error fault := by
  cases result with
  | error fault => exact ⟨fault, rfl⟩
  | ok value => cases refused

def unmasked : Entry :=
  .standalone (.fault (.corruptMessage ⟨⟨0⟩, 0⟩ 0 []))

/-- The writer takes the entry and seals it, but the file is refused. -/
theorem unmasked_refused : Given [unmasked] (single unmasked) ∧ plainHost.Fits (single unmasked).buffer ∧
      ∃ after : Disk, (single unmasked).sealSegment plainHost 0 (.ofFiles ∅) =
          (.ok ((single unmasked).metadata plainHost 0), after) ∧
        ∃ bytes fault, after.files.lookup (.segment 0) = some bytes ∧
          parseSegmentBytes plainHost bytes 0 = .error fault := by
  obtain ⟨after, sealed⟩ := single_sealed unmasked
  obtain ⟨written, _⟩ := sealSegment_eq_ok sealed
  have refused : (parseSegmentBytes plainHost ((single unmasked).sealedBytes plainHost) 0).isOk = false := by
    decide +kernel
  obtain ⟨fault, parsed⟩ := error_of_refused refused
  exact ⟨given_single (by decide +kernel), by decide +kernel, after, sealed, _, fault, written, parsed⟩

end SegmentWriter

end Ldgr
