import Ldgr.Journal.Dag
import Ldgr.Format.Cbor.Decode
import Ldgr.Format.EntryDecode

/-! Length-delimited frames: the writer of the open segment, and the walk over a block with the decoding
of each payload. -/

namespace Ldgr

open Base Format Format.Cbor

def segmentTargetSize : Nat := 64 * 1024 * 1024

/-! ## Frames -/

def writeFrame (id : EntryHash) (dataLen : Nat) (payload : Bytes) : Bytes :=
  leBytes 8 (32 + 8 + payload.length) ++ id.digest.1 ++ leBytes 8 dataLen ++ payload

/-- The canonical `data || vector_clock` bytes and the length of the data. -/
def encodeEntryPayload (entry : Entry) : Except JournalError (Nat × Bytes) :=
  match entry.data.tryCanonicalBytes with
  | .error fault => .error (.invalidPayload (toString fault))
  | .ok encoded => .ok (encoded.length, encoded ++ entry.vectorClock.encode)

def encodeEntryFrame (entry : Entry) : Except JournalError Bytes :=
  (encodeEntryPayload entry).map fun (dataLen, payload) => writeFrame entry.id dataLen payload

/-! ## Writer -/

structure SegmentWriter where
  buffer : Bytes
  index : List (EntryHash × UInt64)
  faultRelevant : Bool
  deriving DecidableEq

namespace SegmentWriter

def new : SegmentWriter :=
  { buffer := [], index := [], faultRelevant := false }

def isEmpty (writer : SegmentWriter) : Bool :=
  writer.buffer.isEmpty

def entryCount (writer : SegmentWriter) : UInt64 :=
  UInt64.ofNat writer.index.length

def shouldSeal (writer : SegmentWriter) : Bool :=
  segmentTargetSize ≤ writer.buffer.length

/-- One frame at the end of the buffer, indexed by the offset it starts at. -/
def push (id : EntryHash) (frame : Bytes) (faultRelevant : Bool) (writer : SegmentWriter) : SegmentWriter :=
  { buffer := writer.buffer ++ frame
    index := writer.index ++ [(id, UInt64.ofNat writer.buffer.length)]
    faultRelevant := writer.faultRelevant || faultRelevant }

def append (entry : Entry) : Action SegmentWriter JournalError Bytes := do
  let frame ← Action.ofExcept (encodeEntryFrame entry)
  Action.modify (push entry.id frame (kindIsFaultRelevant entry.data.kind))
  pure frame

/-- Each entry is encoded exactly once; those before a failing one stay in the buffer. -/
def appendSlice : List Entry → Action SegmentWriter JournalError Unit
  | [] => pure ()
  | entry :: entries => do
      let (dataLen, scratch) ← Action.ofExcept (encodeEntryPayload entry)
      Action.modify (push entry.id (writeFrame entry.id dataLen scratch) (kindIsFaultRelevant entry.data.kind))
      appendSlice entries

def appendFrames (frames : List EntryFrame) (writer : SegmentWriter) : SegmentWriter :=
  frames.foldl (fun writer frame =>
    writer.push frame.id (writeFrame frame.id frame.dataLen frame.payload) frame.faultRelevant)
    writer

end SegmentWriter

def minFramePayload : Nat := 40

/-- The end and the payload of the frame at `offset`, or `none` at the end of the block. -/
def nextFrame (block : Bytes) (offset : Nat) : Except JournalError (Option (Nat × Bytes)) :=
  if block.length ≤ offset then .ok none
  else if block.length < offset + 8 then .error (.segmentCorrupt "partial frame length prefix")
  else if leAt 8 block offset < minFramePayload then
    .error (.segmentCorrupt "frame payload below minimum size")
  else if block.length < offset + 8 + leAt 8 block offset then
    .error (.segmentCorrupt "frame extends past block end")
  else
    .ok (some (offset + 8 + leAt 8 block offset, slice block (offset + 8) (leAt 8 block offset)))

/-! ## Payloads -/

def decodeClockPair : CborValue × CborValue → Except JournalError (ActorId × UInt64)
  | (.unsigned actor, .unsigned count) =>
    if actor.toNat < 2 ^ 32 then .ok (⟨actor.toUInt32⟩, count)
    else .error (.segmentCorrupt "vector clock actor exceeds u32")
  | (.unsigned actor, _) =>
    if actor.toNat < 2 ^ 32 then
      .error (.segmentCorrupt "vector clock value is not an unsigned integer")
    else .error (.segmentCorrupt "vector clock actor exceeds u32")
  | _ => .error (.segmentCorrupt "vector clock key is not an unsigned integer")

def decodeVectorClock (bytes : Bytes) : Except JournalError VectorClock :=
  match CborValue.fromCanonicalBytes bytes with
  | .error fault => .error (.segmentCorrupt (toString fault))
  | .ok (.map pairs) => (pairs.mapM decodeClockPair).map fun entries => ⟨SortedMap.ofList entries⟩
  | .ok _ => .error (.segmentCorrupt "vector clock is not a CBOR map")

def decodeEntryData (bytes : Bytes) : Except JournalError EntryData :=
  (EntryData.fromCanonicalBytes bytes).mapError fun fault => .segmentCorrupt (toString fault)

/-- Reconstructs an entry, verifying the stored hash over data and clock. -/
def decodeFramePayload (blake3 : Bytes → EntryHash) (payload : Bytes) : Except JournalError Entry :=
  if short : payload.length < minFramePayload then
    .error (.segmentCorrupt "frame payload too short")
  else
    let id : EntryHash := ⟨⟨payload.take 32, by simp [minFramePayload] at short ⊢; omega⟩⟩
    let dataLen := leAt 8 payload 32
    if payload.length < 40 + dataLen then
      .error (.segmentCorrupt "frame data length exceeds payload")
    else
      let dataBytes := slice payload 40 dataLen
      let clockBytes := payload.drop (40 + dataLen)
      if blake3 (dataBytes ++ clockBytes) ≠ id then
        .error (.segmentCorrupt "entry hash mismatch; data or clock corrupted")
      else do
        let data ← decodeEntryData dataBytes
        let vectorClock ← decodeVectorClock clockBytes
        pure { id, data, vectorClock }

/-! ## Walks -/

/-- Decodes frame after frame from `offset` until `stop`, passing each entry and its offset on. The
fuel is the length of the block: every frame is longer than one byte. -/
def foldFrames {σ : Type} (blake3 : Bytes → EntryHash) (block : Bytes) (stop : Nat)
    (step : σ → Nat → Entry → Except JournalError σ) : Nat → Nat → σ → Except JournalError σ
  | 0, _, state => .ok state
  | fuel + 1, offset, state =>
    if stop ≤ offset then .ok state
    else do
      match ← nextFrame block offset with
      | none => .error (.segmentCorrupt "WAL frame walk failed")
      | some (next, payload) =>
        let entry ← decodeFramePayload blake3 payload
        let state ← step state offset entry
        foldFrames blake3 block stop step fuel next state

def blockEntries (blake3 : Bytes → EntryHash) (block : Bytes) : Except JournalError (List Entry) :=
  foldFrames blake3 block block.length (fun entries _ entry => .ok (entries ++ [entry])) block.length 0 []

end Ldgr
