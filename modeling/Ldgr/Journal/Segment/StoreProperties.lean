import Ldgr.Journal.ArchiveProperties
import Ldgr.Journal.Segment.FileProperties
import Ldgr.Journal.Segment.Store

/-! What a directory holds of the sealed segments, and the entries read back from it. -/

namespace Ldgr

open Base Format SegmentWriter Action

/-! ## Blocks -/

/-- The id of a sealed segment and the entries it was sealed with. -/
structure Block where
  id : UInt64
  entries : List Entry

namespace Block

def writer (block : Block) : SegmentWriter :=
  .holding block.entries

def file (host : Host) (block : Block) : Bytes :=
  block.writer.sealedBytes host

def segment (host : Host) (flagged : Bool) (block : Block) : SealedSegment :=
  { block.writer.metadata host block.id with containsFaultRelevant := flagged }

structure Valid (host : Host) (block : Block) : Prop where
  readable : ∀ entry ∈ block.entries, entry.Readable host.blake3
  fits : host.Fits block.writer.buffer

theorem Valid.parses {host : Host} (lawful : host.Lawful) {block : Block} (valid : block.Valid host) :
    parseSegmentBytes host (block.file host) block.id = .ok (some (block.segment host false)) :=
  (parseSegmentBytes_holding lawful valid.readable).mpr ⟨valid.fits, rfl⟩

theorem Valid.length_file_lt {host : Host} {block : Block} (valid : block.Valid host) :
    (block.file host).length < 2 ^ 64 := by
  have header := block.writer.length_header_le host.blake3
  have fewer := length_samples_holding_le block.entries
  have framed : 48 * block.entries.length ≤ block.writer.buffer.length :=
    length_le_length_frames valid.readable
  obtain ⟨compressed, decompressed⟩ := valid.fits
  rw [maxCompressedSegmentBytes] at compressed
  rw [maxDecompressedSegmentBytes] at decompressed
  rw [← writer] at fewer
  rw [file, length_sealedBytes, framePrefixLen, indexEntryLen, trailerLen]
  omega

end Block

namespace SegmentStore

variable {α : Type} {store : SegmentStore} {host : Host} {files : Files FileName}

variable {dir : Disk} {blocks : List Block}

theorem onDir_of {action : Action Disk JournalError α} {outcome : Except JournalError α}
    (ran : action store.dir = (outcome, dir)) :
    onDir action store = (outcome, { store with dir }) := by
  simp only [onDir, zoom, ran]

theorem disk_of_ok {action : Action Disk IoError α} {value : α} (ran : action store.dir = (.ok value, dir)) :
    disk action store = (.ok value, { store with dir }) :=
  onDir_of (mapError_eq_ok.mpr ran)

theorem onDir_stays {action : Action Disk JournalError α} {outcome : Except JournalError α}
    (reliable : store.dir = .ofFiles files) (ran : action (.ofFiles files) = (outcome, .ofFiles files)) :
    onDir action store = (outcome, store) := by
  rw [← reliable] at ran
  exact onDir_of ran

theorem disk_stays {action : Action Disk IoError α} {value : α} (reliable : store.dir = .ofFiles files)
    (ran : action (.ofFiles files) = (.ok value, .ofFiles files)) : disk action store = (.ok value, store) :=
  onDir_stays reliable (mapError_eq_ok.mpr ran)

theorem disk_of_error {action : Action Disk IoError α} {fault : IoError}
    (ran : action store.dir = (.error fault, dir)) :
    disk action store = (.error (segmentIo fault), { store with dir }) := by
  refine onDir_of ?_
  simp only [mapError, ran, Except.mapError]

theorem disk_read (reliable : store.dir = .ofFiles files) {name : FileName} {content : Bytes}
    (present : files.lookup name = some content) :
    disk (Directory.read name) store = (.ok content, store) :=
  disk_stays reliable (Directory.read_ofFiles present)

/-! ## Reading -/

/-- The bytes of a block are where the store looks for them. -/
def Finds (host : Host) (archived : List ArchiveRecord) (files : Files FileName) (block : Block) : Prop :=
  archived.lookup block.id = some (block.file host) ∨
    (archived.lookup block.id = none ∧ files.lookup (.segment block.id) = some (block.file host))

theorem segmentBytes_of_finds (reliable : store.dir = .ofFiles files) {block : Block}
    (finds : Finds host store.archived files block) :
    segmentBytes block.id store = (.ok (block.file host), store) := by
  rw [segmentBytes, get_bind]
  obtain archived | ⟨absent, loose⟩ := finds
  · rw [archived]
    rfl
  · rw [absent]
    exact disk_read reliable loose

theorem segmentEntries_of_finds (lawful : host.Lawful) (reliable : store.dir = .ofFiles files)
    {block : Block} (valid : block.Valid host) (finds : Finds host store.archived files block)
    (flagged : Bool) :
    segmentEntries host (block.segment host flagged) store = (.ok block.entries, store) := by
  have header := block.writer.length_header_le host.blake3
  obtain ⟨compressed, decompressed⟩ := id valid.fits
  rw [maxCompressedSegmentBytes] at compressed
  rw [maxDecompressedSegmentBytes] at decompressed
  have start : (block.segment host flagged).dataOffset.toNat =
      framePrefixLen + (block.writer.header host.blake3).length := by
    refine UInt64.toNat_ofNat_of_lt' ?_
    show _ < 2 ^ 64
    rw [framePrefixLen]
    omega
  have size : (block.segment host flagged).compressedLen.toNat = (host.encodeAll block.writer.buffer).length :=
    UInt64.toNat_ofNat_of_lt' (by show _ < 2 ^ 64; omega)
  have whole : (block.segment host flagged).uncompressedLen.toNat = block.writer.buffer.length :=
    UInt64.toNat_ofNat_of_lt' (by show _ < 2 ^ 64; omega)
  have inside : ¬(block.file host).length < framePrefixLen + (block.writer.header host.blake3).length +
      (host.encodeAll block.writer.buffer).length := by
    rw [Block.file, length_sealedBytes]
    omega
  have read : decompressedBlock host (block.segment host flagged) store = (.ok block.writer.buffer, store) := by
    refine (bind_of_ok (segmentBytes_of_finds reliable finds)).trans ?_
    rw [start, size, if_neg inside, Block.file, slice_compressed,
      (decodeSegmentBlock_eq_ok lawful).mpr ⟨valid.fits, rfl⟩, ofExcept_ok_bind, whole,
      if_neg (not_not.mpr rfl)]
    rfl
  refine (bind_of_ok read).trans ?_
  rw [show block.writer.buffer = block.entries.flatMap Entry.frame from rfl, blockEntries_frames valid.readable]
  rfl

/-- Segments are the blocks' metadata, whatever their flags. -/
def Describes (host : Host) (blocks : List Block) (sealed : List SealedSegment) : Prop :=
  List.Forall₂ (fun block segment => segment = block.segment host segment.containsFaultRelevant) blocks sealed

theorem Describes.ids {sealed : List SealedSegment}
    (describes : Describes host blocks sealed) : sealed.map (·.id) = blocks.map (·.id) := by
  induction describes with
  | nil => rfl
  | cons same _ ih => rw [List.map_cons, List.map_cons, ih, same]; rfl

/-- The store lists the blocks and finds each of them where it looks for it. -/
structure Serves (host : Host) (files : Files FileName) (blocks : List Block) (store : SegmentStore) :
    Prop where
  lawful : host.Lawful
  reliable : store.dir = .ofFiles files
  describes : Describes host blocks store.sealed
  valid : ∀ block ∈ blocks, block.Valid host
  finds : ∀ block ∈ blocks, Finds host store.archived files block

theorem foldlM_collectEntries (lawful : host.Lawful) (reliable : store.dir = .ofFiles files)
    {sealed : List SealedSegment} (describes : Describes host blocks sealed)
    (valid : ∀ block ∈ blocks, block.Valid host)
    (finds : ∀ block ∈ blocks, Finds host store.archived files block) (before : List Entry) :
    sealed.foldlM (collectEntries host) before store =
      (.ok (before ++ blocks.flatMap Block.entries), store) := by
  induction describes generalizing before with
  | nil => rw [List.flatMap_nil, List.append_nil]; rfl
  | @cons block segment blocks sealed same _ ih =>
    have read := segmentEntries_of_finds lawful reliable (valid block List.mem_cons_self)
      (finds block List.mem_cons_self) segment.containsFaultRelevant
    have rest := ih (fun block member => valid block (List.mem_cons_of_mem _ member))
      (fun block member => finds block (List.mem_cons_of_mem _ member)) (before ++ block.entries)
    rw [← same] at read
    rw [List.foldlM_cons]
    have first : collectEntries host before segment store = (.ok (before ++ block.entries), store) :=
      bind_of_ok read
    rw [bind_of_ok first, rest, List.flatMap_cons, List.append_assoc]

theorem Serves.entries (serves : Serves host files blocks store) {tail : List Entry}
    (written : store.writer = .holding tail) (readable : ∀ entry ∈ tail, entry.Readable host.blake3) :
    entriesInAppendOrder host store = (.ok (blocks.flatMap Block.entries ++ tail), store) := by
  have sealedRead := foldlM_collectEntries serves.lawful serves.reliable serves.describes serves.valid
    serves.finds []
  rw [List.nil_append] at sealedRead
  rw [entriesInAppendOrder, get_bind, bind_of_ok sealedRead, written,
    show (holding tail).buffer = tail.flatMap Entry.frame from rfl,
    blockEntries_frames readable]
  rfl

end SegmentStore

end Ldgr
