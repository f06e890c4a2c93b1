import Ldgr.Base.Guarded
import Ldgr.Journal.Segment.FileProperties

/-! The segment parser with every index and every addition of machine words checked: it never
aborts, and its loop ends, on any bytes. -/

namespace Ldgr

open Base Format Format.Cbor List SegmentWalk

namespace Checked

open Guarded

abbrev Parsed := Guarded JournalError

def readU32BeAt (bytes : Bytes) (offset : Nat) : Parsed Nat := do
  let stop ← plus offset 4
  let raw ← window bytes offset stop
  pure (beNat raw)

def readU64BeAt (bytes : Bytes) (offset : Nat) : Parsed Nat := do
  let stop ← plus offset 8
  let raw ← window bytes offset stop
  pure (beNat raw)

def readU64LeAt (bytes : Bytes) (offset : Nat) : Parsed Nat := do
  let stop ← plus offset 8
  let raw ← window bytes offset stop
  pure (leNat raw)

def hashOf (raw : Bytes) : Parsed EntryHash :=
  if whole : raw.length = 32 then pure ⟨⟨raw, whole⟩⟩ else abort

/-! ## Frames -/

def nextFrame (block : Bytes) (offset : Nat) : Parsed (Option (Nat × Bytes)) :=
  if block.length ≤ offset then pure none
  else
    match checkedAdd offset 8 with
    | none => fail (.segmentCorrupt "partial frame length prefix")
    | some prefixEnd =>
      if block.length < prefixEnd then fail (.segmentCorrupt "partial frame length prefix")
      else do
        let length ← readU64LeAt block offset
        if length < minFramePayload then fail (.segmentCorrupt "frame payload below minimum size")
        else
          match checkedAdd prefixEnd length with
          | none => fail (.segmentCorrupt "frame extends past block end")
          | some frameEnd =>
            if block.length < frameEnd then fail (.segmentCorrupt "frame extends past block end")
            else do
              let payload ← window block prefixEnd frameEnd
              pure (some (frameEnd, payload))

variable (blake3 : Bytes → EntryHash)

def decodeFramePayload (payload : Bytes) : Parsed Entry :=
  if payload.length < minFramePayload then fail (.segmentCorrupt "frame payload too short")
  else do
    let raw ← window payload 0 32
    let id ← hashOf raw
    let dataLen ← readU64LeAt payload 32
    match checkedAdd 40 dataLen with
    | none => fail (.segmentCorrupt "frame data length exceeds payload")
    | some dataEnd =>
      if payload.length < dataEnd then fail (.segmentCorrupt "frame data length exceeds payload")
      else do
        let dataBytes ← window payload 40 dataEnd
        let clockBytes ← window payload dataEnd payload.length
        if blake3 (dataBytes ++ clockBytes) ≠ id then
          fail (.segmentCorrupt "entry hash mismatch; data or clock corrupted")
        else do
          let data ← ofExcept (decodeEntryData dataBytes)
          let vectorClock ← ofExcept (decodeVectorClock clockBytes)
          pure { id, data, vectorClock }

/-- The next sample, when it is at `offset`, has the front of the entry's id. -/
def matchSample (segmentId : UInt64) (samples : List (UInt64 × UInt32)) (samplePos offset : Nat)
    (entry : Entry) : Parsed Nat :=
  if samplePos < samples.length then do
    let sample ← element samples samplePos
    if sample.1.toNat = offset then
      if sample.2 ≠ prefixOf entry.id then
        fail (.segmentCorrupt ("segment " ++ toString segmentId ++
          " sparse index prefix mismatch at offset " ++ toString offset))
      else plus samplePos 1
    else pure samplePos
  else pure samplePos

/-- The loop over the frames; it aborts when it takes more than `fuel` rounds. -/
def walkFrames (blake3 : Bytes → EntryHash) (segmentId : UInt64) (block : Bytes)
    (samples : List (UInt64 × UInt32)) :
    Nat → Nat → List EntryHash → Nat → Parsed (List EntryHash × Nat)
  | 0, _, _, _ => abort
  | fuel + 1, offset, ids, samplePos => do
      match ← nextFrame block offset with
      | none => pure (ids, samplePos)
      | some (next, payload) =>
        let entry ← decodeFramePayload blake3 payload
        let samplePos ← matchSample segmentId samples samplePos offset entry
        walkFrames blake3 segmentId block samples fuel next (ids ++ [entry.id]) samplePos

/-! ## Files -/

def parsePrefix (bytes : Bytes) (expectedMagic : Bytes) : Parsed (Except FrameError FramePrefix) :=
  if bytes.length < framePrefixLen then pure (.error .truncatedFrame)
  else do
    let magic ← window bytes 0 4
    if magic ≠ expectedMagic then pure (.error .wrongMagic)
    else do
      let version ← window bytes 4 8
      if UInt32.ofNat (leNat version) ≠ formatVersion then
        pure (.error (.unsupportedVersion (UInt32.ofNat (leNat version))))
      else do
        let headerLen ← window bytes 8 12
        if maxHeaderBytes < (UInt32.ofNat (leNat headerLen)).toNat then
          pure (.error (.headerTooLarge (UInt32.ofNat (leNat headerLen))))
        else do
          let flags ← window bytes 12 16
          if UInt32.ofNat (leNat flags) ≠ 0 then
            pure (.error (.reservedFlags (UInt32.ofNat (leNat flags))))
          else
            pure (.ok { magic, formatVersion := UInt32.ofNat (leNat version)
                        headerLen := UInt32.ofNat (leNat headerLen) })

def readSample (bytes : Bytes) (indexStart position : Nat) : Parsed (UInt64 × UInt32) := do
  let skipped ← times position indexEntryLen
  let base ← plus indexStart skipped
  let stop ← plus base indexEntryLen
  let entry ← window bytes base stop
  let offset ← readU64BeAt entry 0
  let front ← readU32BeAt entry 8
  pure (UInt64.ofNat offset, UInt32.ofNat front)

def expectedLen (dataOffset compressedLen indexBytes : Nat) : Option Nat := do
  let indexed ← checkedAdd dataOffset compressedLen
  let ended ← checkedAdd indexed indexBytes
  checkedAdd ended trailerLen

def checkSegmentBlock (host : Host) (segmentId : UInt64) (header : SegmentHeader)
    (samples : List (UInt64 × UInt32)) (block : Bytes) : Parsed Unit := do
  if UInt64.ofNat block.length ≠ header.uncompressedLen then
    fail (.segmentCorrupt ("segment " ++ toString segmentId ++
      " uncompressed length mismatch: expected " ++ toString header.uncompressedLen ++ ", got " ++
      toString block.length))
  else
    let (ids, samplePos) ← walkFrames host.blake3 segmentId block samples (block.length + 1) 0 [] 0
    if UInt64.ofNat ids.length ≠ header.entryCount then
      fail (.segmentCorrupt ("segment " ++ toString segmentId ++
        " entry count mismatch: header says " ++ toString header.entryCount ++ ", decoded " ++
        toString ids.length))
    else if host.blake3 (ids.flatMap fun id => id.digest.1) ≠ header.rootHash then
      fail (.segmentCorrupt ("segment " ++ toString segmentId ++
        " root hash mismatch after full decode"))
    else if samplePos ≠ samples.length then
      fail (.segmentCorrupt ("segment " ++ toString segmentId ++ " sparse index references " ++
        toString (samples.length - samplePos) ++ " non-frame offsets"))
    else pure ()

def parseSegmentBytes (host : Host) (bytes : Bytes) (id : UInt64) : Parsed (Option SealedSegment) :=
  if bytes.length < framePrefixLen + trailerLen then pure none
  else do
    let trailer ← window bytes (bytes.length - trailerLen) bytes.length
    let indexLen ← readU32BeAt trailer 0
    let _ ← readU32BeAt trailer 4
    let compressedLen ← readU64BeAt trailer 8
    match ← parsePrefix bytes magicSegment with
    | .error (.unsupportedVersion version) =>
      fail (.segmentCorrupt ("unsupported segment version " ++ toString version ++ ", expected " ++
        toString formatVersion))
    | .error _ => pure none
    | .ok framePrefix =>
      let headerEnd ← plus framePrefixLen framePrefix.headerLen.toNat
      let covered ← plus headerEnd trailerLen
      if bytes.length < covered then pure none
      else
        let headerBytes ← window bytes framePrefixLen headerEnd
        match parseSegmentHeader headerBytes with
        | none => pure none
        | some header =>
          let indexBytes ← times indexLen indexEntryLen
          if expectedLen headerEnd compressedLen indexBytes ≠ some bytes.length then pure none
          else do
            let indexStart ← plus headerEnd compressedLen
            let samples ← (range indexLen).mapM (readSample bytes indexStart)
            let compressed ← window bytes headerEnd indexStart
            let block ← ofExcept (decodeSegmentBlock host compressed)
            checkSegmentBlock host id header samples block
            pure (some
              { id
                entryCount := header.entryCount
                uncompressedLen := header.uncompressedLen
                compressedLen := UInt64.ofNat compressedLen
                rootHash := header.rootHash
                sampleInterval := header.sampleInterval
                containsFaultRelevant := false
                dataOffset := UInt64.ofNat headerEnd
                samples })

/-! ## Nothing aborts -/

variable {bytes : Bytes} {offset : Nat}

theorem readU64LeAt_of_le (inside : offset + 8 ≤ bytes.length)
    (small : bytes.length < 2 ^ 64) : readU64LeAt bytes offset = pure (leAt 8 bytes offset) := by
  rw [readU64LeAt, plus_of_lt (by omega), pure_bind, window_of_le inside]
  rfl

theorem readU64BeAt_of_le (inside : offset + 8 ≤ bytes.length)
    (small : bytes.length < 2 ^ 64) : readU64BeAt bytes offset = pure (beAt 8 bytes offset) := by
  rw [readU64BeAt, plus_of_lt (by omega), pure_bind, window_of_le inside]
  rfl

theorem readU32BeAt_of_le (inside : offset + 4 ≤ bytes.length)
    (small : bytes.length < 2 ^ 64) : readU32BeAt bytes offset = pure (beAt 4 bytes offset) := by
  rw [readU32BeAt, plus_of_lt (by omega), pure_bind, window_of_le inside]
  rfl

theorem nextFrame_eq {block : Bytes} (small : block.length + 8 < 2 ^ 64) (offset : Nat) :
    nextFrame block offset = ofExcept (Ldgr.nextFrame block offset) := by
  unfold nextFrame Ldgr.nextFrame
  by_cases past : block.length ≤ offset
  · rw [if_pos past, if_pos past]
    rfl
  rw [if_neg past, if_neg past, checkedAdd_of_lt (by omega)]
  dsimp only
  by_cases partly : block.length < offset + 8
  · rw [if_pos partly, if_pos partly]
    rfl
  rw [if_neg partly, if_neg partly, readU64LeAt_of_le (by omega) (by omega), pure_bind]
  by_cases short : leAt 8 block offset < minFramePayload
  · rw [if_pos short, if_pos short]
    rfl
  rw [if_neg short, if_neg short]
  by_cases beyond : block.length < offset + 8 + leAt 8 block offset
  · rw [if_pos beyond]
    unfold checkedAdd
    split_ifs
    · dsimp only
      rw [if_pos beyond]
      rfl
    · rfl
  · rw [if_neg beyond, checkedAdd_of_lt (by omega)]
    dsimp only
    rw [if_neg beyond, window_of_le (by omega)]
    rfl

theorem nextFrame_inside {block payload : Bytes} {offset next : Nat}
    (found : Ldgr.nextFrame block offset = .ok (some (next, payload))) :
    offset < next ∧ payload.length ≤ block.length := by
  unfold Ldgr.nextFrame at found
  split_ifs at found with past partly short beyond
  · cases found
  · obtain ⟨rfl, rfl⟩ := Prod.mk.inj (Option.some.inj (Except.ok.inj found))
    rw [length_slice (Nat.not_lt.mp beyond)]
    omega

theorem nextFrame_ne_none {block : Bytes} (before : ¬block.length ≤ offset) :
    Ldgr.nextFrame block offset ≠ .ok none := by
  intro found
  unfold Ldgr.nextFrame at found
  split_ifs at found
  cases found

theorem decodeFramePayload_eq {payload : Bytes} (small : payload.length < 2 ^ 64) :
    decodeFramePayload blake3 payload = ofExcept (Ldgr.decodeFramePayload blake3 payload) := by
  unfold decodeFramePayload Ldgr.decodeFramePayload
  by_cases short : payload.length < minFramePayload
  · rw [if_pos short, dif_pos short]
    rfl
  have long : 40 ≤ payload.length := Nat.not_lt.mp short
  have front : (window payload 0 32 : Parsed Bytes) = pure (slice payload 0 32) :=
    window_of_le (by omega : 0 + 32 ≤ payload.length)
  have hashed : hashOf (slice payload 0 32) = pure ⟨⟨payload.take 32, by simp; omega⟩⟩ :=
    dif_pos (length_slice (by omega))
  rw [if_neg short, dif_neg short, front, pure_bind, hashed, pure_bind,
    readU64LeAt_of_le (by omega) small, pure_bind]
  dsimp only
  by_cases beyond : payload.length < 40 + leAt 8 payload 32
  · rw [if_pos beyond]
    unfold checkedAdd
    split_ifs
    · dsimp only
      rw [if_pos beyond]
      rfl
    · rfl
  have clock : (window payload (40 + leAt 8 payload 32) payload.length : Parsed Bytes) =
      pure (payload.drop (40 + leAt 8 payload 32)) := by
    rw [window, if_pos ⟨by omega, Nat.le_refl _⟩, slice, take_of_length_le (by simp)]
  rw [if_neg beyond, checkedAdd_of_lt (by omega)]
  dsimp only
  rw [if_neg beyond, window_of_le (by omega), pure_bind, clock, pure_bind]
  split_ifs
  · rfl
  · exact ofExcept_bind fun data _ => ofExcept_bind fun vectorClock _ => rfl

theorem matchSample_eq (segmentId : UInt64) {samples : List (UInt64 × UInt32)} {samplePos offset : Nat}
    (entry : Entry) (ids : List EntryHash) (small : samples.length < 2 ^ 64)
    (inside : samplePos ≤ samples.length) :
    ∃ result, matchSample segmentId samples samplePos offset entry = ofExcept result ∧
      (∀ next, result = .ok next → next ≤ samples.length) ∧
      step segmentId { ids, samples := samples.drop samplePos } offset entry =
        result.map fun next => { ids := ids ++ [entry.id], samples := samples.drop next } := by
  unfold matchSample step
  by_cases more : samplePos < samples.length
  · have remaining := drop_eq_getElem_cons more
    have found : (element samples samplePos : Parsed (UInt64 × UInt32)) = pure samples[samplePos] := by
      rw [element, getElem?_eq_getElem more]
    rw [if_pos more, found, pure_bind]
    dsimp only
    rw [remaining]
    dsimp only
    split_ifs with here other
    · exact ⟨_, rfl, nofun, rfl⟩
    · rw [plus_of_lt (by omega)]
      exact ⟨.ok (samplePos + 1), rfl, fun next same => by cases same; omega, rfl⟩
    · exact ⟨.ok samplePos, rfl, fun next same => by cases same; omega, by rw [← remaining]; rfl⟩
  · rw [if_neg more]
    dsimp only
    rw [drop_of_length_le (Nat.not_lt.mp more)]
    exact ⟨.ok samplePos, rfl, fun next same => by cases same; exact inside,
      by simp [Except.map, drop_of_length_le (Nat.not_lt.mp more)]⟩

/-- Every round moves past a frame, so the loop ends; it computes the walk over the block. -/
theorem walkFrames_eq (segmentId : UInt64) {block : Bytes}
    {samples : List (UInt64 × UInt32)} (small : block.length + 8 < 2 ^ 64)
    (few : samples.length < 2 ^ 64) {fuel less offset : Nat} (enough : block.length - offset < fuel)
    (least : block.length - offset ≤ less) (ids : List EntryHash) {samplePos : Nat}
    (inside : samplePos ≤ samples.length) :
    walkFrames blake3 segmentId block samples fuel offset ids samplePos =
      ofExcept ((foldFrames blake3 block block.length (step segmentId) less offset
        { ids, samples := samples.drop samplePos }).map fun walk =>
          (walk.ids, samples.length - walk.samples.length)) := by
  induction fuel generalizing less offset ids samplePos with
  | zero => omega
  | succ fuel ih =>
    rw [walkFrames, nextFrame_eq small]
    by_cases past : block.length ≤ offset
    · have ended : Ldgr.nextFrame block offset = .ok none := if_pos past
      have folded : foldFrames blake3 block block.length (step segmentId) less offset
          { ids, samples := samples.drop samplePos } = .ok { ids, samples := samples.drop samplePos } := by
        cases less with
        | zero => rfl
        | succ less => rw [foldFrames, if_pos past]
      rw [ended, folded, ofExcept_ok_bind]
      simp only [Except.map, length_drop, Nat.sub_sub_self inside]
      rfl
    · obtain ⟨less, rfl⟩ : ∃ smaller, less = smaller + 1 := ⟨less - 1, by omega⟩
      rw [foldFrames, if_neg past]
      rcases stepped : Ldgr.nextFrame block offset with fault | _ | ⟨next, payload⟩
      · rfl
      · exact absurd stepped (nextFrame_ne_none past)
      · obtain ⟨further, shorter⟩ := nextFrame_inside stepped
        rw [ofExcept_ok_bind]
        dsimp only
        rw [decodeFramePayload_eq blake3 (by omega)]
        simp only [except_ok_bind]
        cases Ldgr.decodeFramePayload blake3 payload with
        | error fault => rfl
        | ok entry =>
          obtain ⟨result, matched, bounded, walked⟩ :=
            @matchSample_eq segmentId samples samplePos offset entry ids few inside
          rw [ofExcept_ok_bind, matched]
          simp only [except_ok_bind, walked]
          cases result with
          | error fault => rfl
          | ok following =>
            exact ih (by omega) (by omega) (ids ++ [entry.id]) (bounded following rfl)

theorem parsePrefix_eq (bytes expectedMagic : Bytes) :
    parsePrefix bytes expectedMagic = pure (Format.parsePrefix bytes expectedMagic) := by
  unfold parsePrefix Format.parsePrefix
  by_cases short : bytes.length < framePrefixLen
  · rw [if_pos short, if_pos short]
  have long : 16 ≤ bytes.length := Nat.not_lt.mp short
  have field {start : Nat} (inside : start + 4 ≤ bytes.length) :
      (window bytes start (start + 4) : Parsed Bytes) = pure (slice bytes start 4) := window_of_le inside
  have magic := @field 0 (by omega)
  have version := @field 4 (by omega)
  have headerLen := @field 8 (by omega)
  have flags := @field 12 (by omega)
  rw [Nat.zero_add] at magic
  rw [if_neg short, if_neg short, magic, pure_bind, version, pure_bind, headerLen, pure_bind, flags, pure_bind]
  have front : bytes.take 4 = slice bytes 0 4 := rfl
  simp only [readU32Le, leAt, front]
  split_ifs <;> rfl

theorem readSample_eq {indexStart position : Nat}
    (inside : indexStart + position * indexEntryLen + indexEntryLen ≤ bytes.length)
    (small : bytes.length < 2 ^ 64) :
    readSample bytes indexStart position =
      pure (let entry := slice bytes (indexStart + position * indexEntryLen) indexEntryLen
        (UInt64.ofNat (beAt 8 entry 0), UInt32.ofNat (beAt 4 entry 8))) := by
  have size := length_slice inside
  have width : indexEntryLen = 12 := rfl
  rw [readSample, times_of_lt (by omega), pure_bind, plus_of_lt (by omega), pure_bind,
    plus_of_lt (by omega), pure_bind, window_of_le inside, pure_bind,
    readU64BeAt_of_le (by omega) (by omega), pure_bind, readU32BeAt_of_le (by omega) (by omega),
    pure_bind]

theorem expectedLen_eq_some {dataOffset compressedLen indexBytes size : Nat} (small : size < 2 ^ 64) :
    expectedLen dataOffset compressedLen indexBytes = some size ↔
      dataOffset + compressedLen + indexBytes + trailerLen = size := by
  unfold expectedLen
  simp only [Option.bind_eq_bind, Option.bind_eq_some_iff, checkedAdd, Option.ite_none_right_eq_some,
    Option.some.injEq]
  constructor
  · rintro ⟨_, ⟨_, rfl⟩, _, ⟨_, rfl⟩, _, rfl⟩
    rfl
  · intro same
    exact ⟨_, ⟨by omega, rfl⟩, _, ⟨by omega, rfl⟩, by omega, same⟩

theorem length_samples_step {segmentId : UInt64} {walk after : SegmentWalk} {entry : Entry}
    (stepped : walk.step segmentId offset entry = .ok after) :
    after.samples.length ≤ walk.samples.length := by
  unfold step at stepped
  split at stepped
  · rename_i sampled front samples listed
    split_ifs at stepped
    · cases stepped
      rw [listed, length_cons]
      exact Nat.le_succ _
    · cases stepped
      exact Nat.le_refl _
  · cases stepped
    exact Nat.le_refl _

theorem length_samples_foldFrames {blake3 : Bytes → EntryHash} {segmentId : UInt64} {block : Bytes}
    {stop fuel offset : Nat} {walk after : SegmentWalk}
    (walked : foldFrames blake3 block stop (step segmentId) fuel offset walk = .ok after) :
    after.samples.length ≤ walk.samples.length := by
  induction fuel generalizing offset walk with
  | zero =>
    cases walked
    exact Nat.le_refl _
  | succ fuel ih =>
    rw [foldFrames] at walked
    split_ifs at walked
    · cases walked
      exact Nat.le_refl _
    · obtain ⟨found, _, walked⟩ := except_bind_eq_ok.mp walked
      cases found with
      | none => cases walked
      | some frame =>
        obtain ⟨entry, _, walked⟩ := except_bind_eq_ok.mp walked
        obtain ⟨next, stepped, walked⟩ := except_bind_eq_ok.mp walked
        exact (ih walked).trans (length_samples_step stepped)

theorem checkSegmentBlock_eq (host : Host) (segmentId : UInt64) (header : SegmentHeader)
    {samples : List (UInt64 × UInt32)} {block : Bytes} (small : block.length + 8 < 2 ^ 64)
    (few : samples.length < 2 ^ 64) :
    checkSegmentBlock host segmentId header samples block =
      ofExcept (Ldgr.checkSegmentBlock host segmentId header samples block) := by
  unfold checkSegmentBlock Ldgr.checkSegmentBlock
  split_ifs
  · rfl
  have walked := @walkFrames_eq host.blake3 segmentId block samples small few (block.length + 1)
    block.length 0 (by omega) (by omega) [] 0 (Nat.zero_le _)
  rw [drop_zero] at walked
  rw [walked]
  cases folded : foldFrames host.blake3 block block.length (step segmentId) block.length 0
    { ids := [], samples } with
  | error fault => rfl
  | ok walk =>
    have fewer : walk.samples.length ≤ samples.length := length_samples_foldFrames folded
    have all : samples.length - walk.samples.length ≠ samples.length ↔ walk.samples ≠ [] := by
      rw [ne_eq, ne_eq, ← length_eq_zero_iff]
      omega
    rw [Except.map, ofExcept_ok_bind, except_ok_bind]
    simp only [all, Nat.sub_sub_self fewer]
    split_ifs <;> rfl

theorem length_decodeSegmentBlock {host : Host} {compressed block : Bytes}
    (decoded : decodeSegmentBlock host compressed = .ok block) :
    block.length ≤ maxDecompressedSegmentBytes := by
  unfold decodeSegmentBlock at decoded
  split_ifs at decoded with large
  dsimp only at decoded
  split_ifs at decoded with long
  split at decoded
  · cases decoded
  · cases decoded
    exact Nat.not_lt.mp long

theorem parseSegmentBytes_eq (host : Host) (id : UInt64) (small : bytes.length < 2 ^ 64) :
    parseSegmentBytes host bytes id = ofExcept (Ldgr.parseSegmentBytes host bytes id) := by
  unfold parseSegmentBytes Ldgr.parseSegmentBytes
  by_cases short : bytes.length < framePrefixLen + trailerLen
  · rw [if_pos short, if_pos short]
    rfl
  have sizes : framePrefixLen = 16 ∧ trailerLen = 16 ∧ indexEntryLen = 12 := ⟨rfl, rfl, rfl⟩
  obtain ⟨prefixSize, trailerSize, entrySize⟩ := sizes
  have trailer : (window bytes (bytes.length - trailerLen) bytes.length : Parsed Bytes) =
      pure (bytes.drop (bytes.length - trailerLen)) := by
    rw [window, if_pos ⟨by omega, Nat.le_refl _⟩, slice, take_of_length_le (by simp)]
  have length : (bytes.drop (bytes.length - trailerLen)).length = 16 := by
    rw [length_drop]
    omega
  rw [if_neg short, if_neg short, trailer, pure_bind, readU32BeAt_of_le (by omega) (by omega), pure_bind,
    readU32BeAt_of_le (by omega) (by omega), pure_bind, readU64BeAt_of_le (by omega) (by omega), pure_bind,
    parsePrefix_eq, pure_bind]
  dsimp only
  generalize indexed : beAt 4 (bytes.drop (bytes.length - trailerLen)) 0 = indexLen
  generalize beAt 8 (bytes.drop (bytes.length - trailerLen)) 8 = compressedLen
  have few : indexLen < 2 ^ 32 := by
    have bound := beNat_lt (slice (bytes.drop (bytes.length - trailerLen)) 0 4)
    rw [length_slice (by omega)] at bound
    exact indexed ▸ bound
  cases parsed : Format.parsePrefix bytes magicSegment with
  | error fault => cases fault <;> rfl
  | ok framePrefix =>
    have headerSmall := framePrefix.headerLen.toNat_lt
    dsimp only
    rw [plus_of_lt (by omega), pure_bind, plus_of_lt (by omega), pure_bind]
    by_cases cut : bytes.length < framePrefixLen + framePrefix.headerLen.toNat + trailerLen
    · rw [if_pos cut, if_pos cut]
      rfl
    rw [if_neg cut, if_neg cut, window_of_le (by omega), pure_bind]
    cases parseSegmentHeader (slice bytes framePrefixLen framePrefix.headerLen.toNat) with
    | none => rfl
    | some header =>
      dsimp only
      rw [times_of_lt (by rw [entrySize]; omega), pure_bind]
      simp only [ne_eq, expectedLen_eq_some small]
      by_cases whole : framePrefixLen + framePrefix.headerLen.toNat + compressedLen +
          indexLen * indexEntryLen + trailerLen = bytes.length
      · rw [if_neg (not_not.mpr whole), if_neg (not_not.mpr whole), plus_of_lt (by omega), pure_bind]
        have samples := @mapM_of_forall JournalError (UInt64 × UInt32) Nat (range indexLen)
          (readSample bytes (framePrefixLen + framePrefix.headerLen.toNat + compressedLen)) _
          fun position member => readSample_eq (by
            have below := mem_range.mp member
            rw [entrySize] at whole ⊢
            omega) small
        rw [samples, pure_bind, window_of_le (by omega), pure_bind]
        refine ofExcept_bind fun block decoded => ?_
        have capped := length_decodeSegmentBlock decoded
        rw [maxDecompressedSegmentBytes] at capped
        rw [checkSegmentBlock_eq host id header (by omega) (by rw [length_map, length_range]; omega)]
        exact ofExcept_bind fun _ _ => rfl
      · rw [if_pos whole, if_pos whole]
        rfl

end Checked

end Ldgr
