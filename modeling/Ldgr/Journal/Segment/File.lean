import Ldgr.Journal.Segment.Frames
import Ldgr.Journal.Archive

/-! Sealed segment files: prefix, CBOR header, compressed frame block, sparse index and trailer. -/

namespace Ldgr

open Base Format Format.Cbor

def sampleInterval : UInt32 := 32

def trailerLen : Nat := 16

def indexEntryLen : Nat := 12

structure SealedSegment where
  id : UInt64
  entryCount : UInt64
  uncompressedLen : UInt64
  compressedLen : UInt64
  /-- Hash over the ordered entry ids. -/
  rootHash : EntryHash
  sampleInterval : UInt32
  /-- True when any frame carries a Fault, Outcome or Assert kind. -/
  containsFaultRelevant : Bool
  dataOffset : UInt64
  /-- Sparse index entries, sorted by offset. -/
  samples : List (UInt64 × UInt32)
  deriving DecidableEq

def prefixOf (hash : EntryHash) : UInt32 :=
  readU32Le hash.digest.1 0

variable (host : Host)

/-- Decompresses one frame block under the declared byte caps. The stream is read no further than
one byte past the cap, so an error behind it is not met. -/
def decodeSegmentBlock (compressed : Bytes) : Except JournalError Bytes :=
  if maxCompressedSegmentBytes < compressed.length then
    .error (.segmentCorrupt "compressed segment block exceeds limit")
  else
    let (block, fault) := host.decode compressed
    if maxDecompressedSegmentBytes < block.length then
      .error (.segmentCorrupt "decompressed segment block exceeds limit")
    else
      match fault with
      | some message => .error (.segmentCorrupt message)
      | none => .ok block

/-! ## Sealing -/

def segmentHeader (entryCount uncompressedLen : UInt64) (rootHash : EntryHash)
    (sampleInterval : UInt32) : Bytes :=
  array 4 ++ unsigned entryCount ++ unsigned uncompressedLen ++ bytes rootHash.digest.1 ++
    unsigned sampleInterval.toUInt64

def encodeSample (sample : UInt64 × UInt32) : Bytes :=
  beBytes 8 sample.1.toNat ++ beBytes 4 sample.2.toNat

def segmentTrailer (indexLen : Nat) (sampleInterval : UInt32) (compressedLen : Nat) : Bytes :=
  beBytes 4 indexLen ++ beBytes 4 sampleInterval.toNat ++ beBytes 8 compressedLen

namespace SegmentWriter

variable (writer : SegmentWriter)

/-- Every frame at the sampling interval, by its offset and the front of its id. -/
def samples : List (UInt64 × UInt32) :=
  writer.index.zipIdx.filterMap fun ((id, offset), position) =>
    if position % sampleInterval.toNat = 0 then some (offset, prefixOf id) else none

def rootHash (blake3 : Bytes → EntryHash) (writer : SegmentWriter) : EntryHash :=
  blake3 (writer.index.flatMap fun (id, _) => id.digest.1)

def header (blake3 : Bytes → EntryHash) (writer : SegmentWriter) : Bytes :=
  segmentHeader (UInt64.ofNat writer.index.length) (UInt64.ofNat writer.buffer.length)
    (writer.rootHash blake3) sampleInterval

/-- The file a writer is sealed into. -/
def sealedBytes : Bytes :=
  let header := writer.header host.blake3
  let compressed := host.encodeAll writer.buffer
  encodePrefix magicSegment (UInt32.ofNat header.length) ++ header ++ compressed ++
    writer.samples.flatMap encodeSample ++
    segmentTrailer writer.samples.length sampleInterval compressed.length

def metadata (segmentId : UInt64) : SealedSegment where
  id := segmentId
  entryCount := UInt64.ofNat writer.index.length
  uncompressedLen := UInt64.ofNat writer.buffer.length
  compressedLen := UInt64.ofNat (host.encodeAll writer.buffer).length
  rootHash := writer.rootHash host.blake3
  sampleInterval := sampleInterval
  containsFaultRelevant := writer.faultRelevant
  dataOffset := UInt64.ofNat (framePrefixLen + (writer.header host.blake3).length)
  samples := writer.samples

def sealSegment (segmentId : UInt64) : Action Disk JournalError SealedSegment := do
  Action.mapError segmentIo
    (Directory.replace (.segmentTmp segmentId) (.segment segmentId) (writer.sealedBytes host))
  pure (writer.metadata host segmentId)

end SegmentWriter

/-! ## Parsing -/

structure SegmentHeader where
  entryCount : UInt64
  uncompressedLen : UInt64
  rootHash : EntryHash
  sampleInterval : UInt32

def parseSegmentHeader (bytes : Bytes) : Option SegmentHeader :=
  match CborValue.fromCanonicalBytes bytes with
  | .ok (.array [.unsigned entryCount, .unsigned uncompressedLen, .bytes root, .unsigned sampleInterval]) =>
      if whole : root.length = 32 then
        if sampleInterval.toNat < 2 ^ 32 then
          some { entryCount, uncompressedLen, rootHash := ⟨⟨root, whole⟩⟩
                 sampleInterval := sampleInterval.toUInt32 }
        else none
      else none
  | _ => none

/-- The decoded frames so far: the ids for the root hash and the samples not yet met. -/
structure SegmentWalk where
  ids : List EntryHash
  samples : List (UInt64 × UInt32)

def SegmentWalk.step (id : UInt64) (walk : SegmentWalk) (offset : Nat) (entry : Entry) :
    Except JournalError SegmentWalk :=
  match walk.samples with
  | (sampled, front) :: samples =>
    if sampled.toNat = offset then
      if front ≠ prefixOf entry.id then
        .error (.segmentCorrupt ("segment " ++ toString id ++
          " sparse index prefix mismatch at offset " ++ toString offset))
      else .ok { ids := walk.ids ++ [entry.id], samples }
    else .ok { walk with ids := walk.ids ++ [entry.id] }
  | [] => .ok { walk with ids := walk.ids ++ [entry.id] }

/-- Decodes the whole block and compares it with the header and the sparse index. -/
def checkSegmentBlock (id : UInt64) (header : SegmentHeader)
    (samples : List (UInt64 × UInt32)) (block : Bytes) : Except JournalError Unit := do
  if UInt64.ofNat block.length ≠ header.uncompressedLen then
    .error (.segmentCorrupt ("segment " ++ toString id ++ " uncompressed length mismatch: expected " ++
      toString header.uncompressedLen ++ ", got " ++ toString block.length))
  else
    let walk ← foldFrames host.blake3 block block.length (SegmentWalk.step id) block.length 0
      { ids := [], samples }
    if UInt64.ofNat walk.ids.length ≠ header.entryCount then
      .error (.segmentCorrupt ("segment " ++ toString id ++ " entry count mismatch: header says " ++
        toString header.entryCount ++ ", decoded " ++ toString walk.ids.length))
    else if host.blake3 (walk.ids.flatMap fun id => id.digest.1) ≠ header.rootHash then
      .error (.segmentCorrupt ("segment " ++ toString id ++ " root hash mismatch after full decode"))
    else if walk.samples ≠ [] then
      .error (.segmentCorrupt ("segment " ++ toString id ++ " sparse index references " ++
        toString walk.samples.length ++ " non-frame offsets"))
    else .ok ()

/-- Metadata and sparse index of a segment file. A file that is not one, or is cut short, is `none`;
the fault flag is not part of the file. -/
def parseSegmentBytes (bytes : Bytes) (id : UInt64) : Except JournalError (Option SealedSegment) :=
  if bytes.length < framePrefixLen + trailerLen then .ok none
  else
    let trailer := bytes.drop (bytes.length - trailerLen)
    let indexLen := beAt 4 trailer 0
    let compressedLen := beAt 8 trailer 8
    match parsePrefix bytes magicSegment with
    | .error (.unsupportedVersion version) =>
      .error (.segmentCorrupt ("unsupported segment version " ++ toString version ++ ", expected " ++
        toString formatVersion))
    | .error _ => .ok none
    | .ok framePrefix =>
      let headerEnd := framePrefixLen + framePrefix.headerLen.toNat
      if bytes.length < headerEnd + trailerLen then .ok none
      else
        match parseSegmentHeader (slice bytes framePrefixLen framePrefix.headerLen.toNat) with
        | none => .ok none
        | some header =>
          if headerEnd + compressedLen + indexLen * indexEntryLen + trailerLen ≠ bytes.length then
            .ok none
          else do
            let indexStart := headerEnd + compressedLen
            let samples := (List.range indexLen).map fun position =>
              let entry := slice bytes (indexStart + position * indexEntryLen) indexEntryLen
              (UInt64.ofNat (beAt 8 entry 0), UInt32.ofNat (beAt 4 entry 8))
            let block ← decodeSegmentBlock host (slice bytes headerEnd compressedLen)
            checkSegmentBlock host id header samples block
            .ok (some
              { id
                entryCount := header.entryCount
                uncompressedLen := header.uncompressedLen
                compressedLen := UInt64.ofNat compressedLen
                rootHash := header.rootHash
                sampleInterval := header.sampleInterval
                containsFaultRelevant := false
                dataOffset := UInt64.ofNat headerEnd
                samples })

end Ldgr
