import Ldgr.Format.Cbor.ValueProperties
import Ldgr.Journal.Segment.File
import Ldgr.Journal.Segment.FramesProperties

/-! A sealed file is parsed back to the metadata of the writer it was sealed from, as long as its
block is within the caps of the decoder. -/

namespace Ldgr

open Base Format Format.Cbor SegmentWriter List

/-- Decompression undoes compression. -/
structure Host.Lawful (host : Host) : Prop where
  decodes : ∀ block, host.decode (host.encodeAll block) = (block, none)

/-- The host a run is evaluated on: blocks are stored as they are. -/
def plainHost : Host where
  blake3 := checksum
  encodeAll := id
  decode bytes := (bytes, none)

theorem plainHost_lawful : plainHost.Lawful where
  decodes _ := rfl

/-- A block the decoder's caps let through. -/
def Host.Fits (host : Host) (block : Bytes) : Prop :=
  (host.encodeAll block).length ≤ maxCompressedSegmentBytes ∧ block.length ≤ maxDecompressedSegmentBytes

instance (host : Host) (block : Bytes) : Decidable (host.Fits block) :=
  inferInstanceAs (Decidable (_ ∧ _))

theorem decodeSegmentBlock_eq_ok {host : Host} (lawful : host.Lawful) {block found : Bytes} :
    decodeSegmentBlock host (host.encodeAll block) = .ok found ↔ host.Fits block ∧ found = block := by
  unfold decodeSegmentBlock Host.Fits
  rw [lawful.decodes]
  dsimp only
  split_ifs with large long
  · simp [Nat.not_le.mpr large]
  · simp [Nat.not_le.mpr long]
  · simp [Nat.not_lt.mp large, Nat.not_lt.mp long, eq_comm]

/-! ## Writers -/

theorem framesFrom_append (start : Nat) (entries others : List Entry) : framesFrom start (entries ++ others) =
      framesFrom start entries ++ framesFrom (start + (entries.flatMap Entry.frame).length) others := by
  induction entries generalizing start with
  | nil => simp [framesFrom]
  | cons entry entries ih =>
    simp only [cons_append, framesFrom, ih, flatMap_cons, length_append, Nat.add_assoc]

namespace SegmentWriter

def holding (entries : List Entry) : SegmentWriter where
  buffer := entries.flatMap Entry.frame
  index := (framesFrom 0 entries).map fun frame => (frame.2.id, UInt64.ofNat frame.1)
  faultRelevant := entries.any fun entry => kindIsFaultRelevant entry.data.kind

@[simp] theorem holding_nil : holding [] = new := rfl

theorem push_holding (entries : List Entry) (entry : Entry) :
    (holding entries).push entry.id entry.frame (kindIsFaultRelevant entry.data.kind) =
      holding (entries ++ [entry]) := by
  simp [push, holding, framesFrom_append, framesFrom]

@[simp] theorem length_index_holding (entries : List Entry) :
    (holding entries).index.length = entries.length := by
  rw [holding, length_map, ← length_map Prod.snd, map_snd_framesFrom]

theorem length_samples_holding_le (entries : List Entry) :
    (holding entries).samples.length ≤ entries.length := by
  refine Nat.le_trans (length_filterMap_le ..) ?_
  rw [length_zipIdx, length_index_holding]

theorem rootHash_holding (blake3 : Bytes → EntryHash) (entries : List Entry) :
    (holding entries).rootHash blake3 = blake3 (entries.flatMap fun entry => entry.id.digest.1) := by
  have ids := flatMap_map Prod.snd (fun entry : Entry => entry.id.digest.1) (framesFrom 0 entries)
  rw [map_snd_framesFrom] at ids
  rw [rootHash, holding, flatMap_map, ids]

end SegmentWriter

/-! ## Sparse index -/

/-- The samples of frames from `position` on. -/
def sampled (position : Nat) (frames : List (Nat × Entry)) : List (UInt64 × UInt32) :=
  ((frames.map fun frame => (frame.2.id, UInt64.ofNat frame.1)).zipIdx position).filterMap
    fun ((id, offset), position) =>
      if position % sampleInterval.toNat = 0 then some (offset, prefixOf id) else none

theorem sampled_cons (position : Nat) (frame : Nat × Entry) (frames : List (Nat × Entry)) :
    sampled position (frame :: frames) =
      (if position % sampleInterval.toNat = 0 then [(UInt64.ofNat frame.1, prefixOf frame.2.id)]
        else []) ++ sampled (position + 1) frames := by
  simp only [sampled, map_cons, zipIdx_cons, filterMap_cons]
  split_ifs <;> rfl

variable {entries : List Entry}

theorem start_le_of_mem_framesFrom {start : Nat} {frame : Nat × Entry}
    (member : frame ∈ framesFrom start entries) :
    start ≤ frame.1 ∧ frame.1 ≤ start + (entries.flatMap Entry.frame).length := by
  induction entries generalizing start with
  | nil => cases member
  | cons entry entries ih =>
    rw [flatMap_cons, length_append]
    obtain rfl | later := mem_cons.mp member
    · simp
    · have := ih later
      omega

theorem start_le_of_mem_sampled {start position : Nat}
    (small : start + (entries.flatMap Entry.frame).length < 2 ^ 64) {sample : UInt64 × UInt32}
    (member : sample ∈ sampled position (framesFrom start entries)) : start ≤ sample.1.toNat := by
  obtain ⟨⟨⟨id, offset⟩, index⟩, listed, chosen⟩ := mem_filterMap.mp member
  have indexed := mem_map.mp (fst_mem_of_mem_zipIdx listed)
  obtain ⟨frame, framed, same⟩ := indexed
  have bounds := start_le_of_mem_framesFrom framed
  cases same
  dsimp only at chosen
  split_ifs at chosen
  cases chosen
  rw [UInt64.toNat_ofNat_of_lt' (by show frame.1 < 2 ^ 64; omega)]
  exact bounds.1

theorem foldlM_segmentWalk {blake3 : Bytes → EntryHash} (id : UInt64)
    (readable : ∀ entry ∈ entries, entry.Readable blake3) (start : Nat)
    (small : start + (entries.flatMap Entry.frame).length < 2 ^ 64) (position : Nat)
    (ids : List EntryHash) :
    (framesFrom start entries).foldlM (fun walk frame => SegmentWalk.step id walk frame.1 frame.2)
        { ids, samples := sampled position (framesFrom start entries) } =
      .ok { ids := ids ++ entries.map (·.id), samples := [] } := by
  induction entries generalizing start position ids with
  | nil => rw [map_nil, append_nil]; rfl
  | cons entry entries ih =>
    have long := (readable entry mem_cons_self).length_frame
    rw [flatMap_cons, length_append, ← Nat.add_assoc] at small
    have rest := ih (fun entry member => readable entry (mem_cons_of_mem _ member)) _ small
      (position + 1) (ids ++ [entry.id])
    rw [append_assoc, singleton_append] at rest
    have offset : (UInt64.ofNat start).toNat = start :=
      UInt64.toNat_ofNat_of_lt' (by show start < 2 ^ 64; omega)
    have stepped : SegmentWalk.step id
        { ids, samples := sampled position (framesFrom start (entry :: entries)) } start entry =
        .ok { ids := ids ++ [entry.id]
              samples := sampled (position + 1) (framesFrom (start + entry.frame.length) entries) } := by
      rw [framesFrom, sampled_cons]
      split_ifs with chosen
      · simp only [SegmentWalk.step, singleton_append, offset, if_true, ne_eq, not_true_eq_false, if_false]
      · rw [nil_append]
        cases samples : sampled (position + 1) (framesFrom (start + entry.frame.length) entries) with
        | nil => rfl
        | cons sample samples =>
          have later := start_le_of_mem_sampled small (samples ▸ mem_cons_self)
          have apart : ¬sample.1.toNat = start := by omega
          simp only [SegmentWalk.step, if_neg apart]
    rw [map_cons, framesFrom, foldlM_cons]
    rw [framesFrom] at stepped
    simp only [stepped]
    exact rest

theorem checkSegmentBlock_holding {host : Host}
    (readable : ∀ entry ∈ entries, entry.Readable host.blake3) (id : UInt64)
    (small : (entries.flatMap Entry.frame).length < 2 ^ 64) : checkSegmentBlock host id
        { entryCount := UInt64.ofNat (holding entries).index.length
          uncompressedLen := UInt64.ofNat (holding entries).buffer.length
          rootHash := (holding entries).rootHash host.blake3
          sampleInterval }
        (holding entries).samples (holding entries).buffer = .ok () := by
  have enough : entries.length ≤ (entries.flatMap Entry.frame).length := by
    have := length_le_length_frames readable
    omega
  have walk := foldFrames_frames readable (SegmentWalk.step id) [] [] enough
    { ids := [], samples := (holding entries).samples }
  rw [nil_append, append_nil, length_nil, Nat.zero_add] at walk
  have met := foldlM_segmentWalk id readable 0 (by omega) 0 []
  have walked := walk.trans met
  rw [checkSegmentBlock, if_neg (not_not.mpr rfl)]
  refine except_bind_eq_ok.mpr ⟨_, walked, ?_⟩
  rw [nil_append, length_map, length_index_holding, if_neg (not_not.mpr rfl),
    rootHash_holding, flatMap_map, if_neg (not_not.mpr rfl),
    if_neg (not_not.mpr rfl)]

theorem range_samples (front rest : Bytes) (samples : List (UInt64 × UInt32)) :
    ((List.range samples.length).map fun position =>
      let entry := slice (front ++ (samples.flatMap encodeSample ++ rest))
        (front.length + position * indexEntryLen) indexEntryLen
      (UInt64.ofNat (beAt 8 entry 0), UInt32.ofNat (beAt 4 entry 8))) = samples := by
  induction samples generalizing front with
  | nil => rfl
  | cons sample samples ih =>
    have size : (encodeSample sample).length = indexEntryLen := by
      rw [encodeSample, length_append, length_beBytes, length_beBytes, indexEntryLen]
    have first : slice (front ++ ((sample :: samples).flatMap encodeSample ++ rest)) front.length
        indexEntryLen = encodeSample sample := by
      rw [flatMap_cons, append_assoc, slice_append _ rfl size]
    have offset : beAt 8 ([] ++ (beBytes 8 sample.1.toNat ++ beBytes 4 sample.2.toNat)) 0 =
        sample.1.toNat := beAt_append _ rfl sample.1.toNat_lt
    have start : beAt 4 (beBytes 8 sample.1.toNat ++ (beBytes 4 sample.2.toNat ++ [])) 8 =
        sample.2.toNat := beAt_append _ (length_beBytes ..) sample.2.toNat_lt
    rw [nil_append, ← encodeSample] at offset
    rw [append_nil, ← encodeSample] at start
    have others := ih (front ++ encodeSample sample)
    rw [length_append, size, append_assoc] at others
    rw [length_cons, range_succ_eq_map, map_cons, map_map, Nat.zero_mul, Nat.add_zero]
    simp only [first, offset, start, UInt64.ofNat_toNat, UInt32.ofNat_toNat]
    congr 1
    refine Eq.trans (map_congr_left fun position _ => ?_) others
    simp only [Function.comp_apply, Nat.succ_mul, flatMap_cons, append_assoc]
    rw [Nat.add_comm (position * _), ← Nat.add_assoc]

variable (blake3 : Bytes → EntryHash) (writer : SegmentWriter)

theorem parseSegmentHeader_header :
    parseSegmentHeader (writer.header blake3) = some
      { entryCount := UInt64.ofNat writer.index.length
        uncompressedLen := UInt64.ofNat writer.buffer.length
        rootHash := writer.rootHash blake3
        sampleInterval } := by
  have tree : CborValue.fromCanonicalBytes (writer.header blake3) =
      .ok (.array [.unsigned (UInt64.ofNat writer.index.length),
        .unsigned (UInt64.ofNat writer.buffer.length), .bytes (writer.rootHash blake3).digest.1,
        .unsigned sampleInterval.toUInt64]) := by
    have digest : (writer.rootHash blake3).digest.1.length < 2 ^ 64 := by
      rw [(writer.rootHash blake3).digest.2]
      decide
    refine CborValue.fromCanonicalBytes_eq_ok.mpr ⟨⟨?_, trivial, trivial, digest, trivial, trivial⟩, ?_, ?_⟩
    · simp
    · simp [CborValue.depth, CborValue.depthItems, maxDepth]
    · simp only [header, segmentHeader, CborValue.wire, CborValue.wireItems, append_nil, append_assoc]
      rfl
  rw [parseSegmentHeader, tree]
  simp only [(writer.rootHash blake3).digest.2, dif_pos]
  rfl

/-! ## Files -/

namespace SegmentWriter

theorem length_header_le :
    (writer.header blake3).length ≤ 100 := by
  have first : (array 4).length ≤ 9 := length_major_le 4 _
  have count : (unsigned (UInt64.ofNat writer.index.length)).length ≤ 9 := length_major_le 0 _
  have size : (unsigned (UInt64.ofNat writer.buffer.length)).length ≤ 9 := length_major_le 0 _
  have root : (bytes (writer.rootHash blake3).digest.1).length ≤ 9 + 32 := by
    rw [bytes, length_append, (writer.rootHash blake3).digest.2]
    exact Nat.add_le_add_right (length_major_le 2 _) 32
  have interval : (unsigned sampleInterval.toUInt64).length ≤ 9 := length_major_le 0 _
  simp only [header, segmentHeader, length_append]
  omega

/-- The header fields a sealed file is parsed with. -/
def fields : SegmentHeader where
  entryCount := UInt64.ofNat writer.index.length
  uncompressedLen := UInt64.ofNat writer.buffer.length
  rootHash := writer.rootHash blake3
  sampleInterval := sampleInterval

def framePrefix : Bytes :=
  encodePrefix magicSegment (UInt32.ofNat (writer.header blake3).length)

def trailer (host : Host) (writer : SegmentWriter) : Bytes :=
  segmentTrailer writer.samples.length sampleInterval (host.encodeAll writer.buffer).length

variable (host : Host) (writer : SegmentWriter)

theorem sealedBytes_eq :
    writer.sealedBytes host = writer.framePrefix host.blake3 ++ (writer.header host.blake3 ++
      (host.encodeAll writer.buffer ++ (writer.samples.flatMap encodeSample ++ writer.trailer host))) := by
  simp only [sealedBytes, framePrefix, trailer, append_assoc]

theorem length_framePrefix :
    (writer.framePrefix blake3).length = framePrefixLen :=
  length_encodePrefix rfl _

theorem length_trailer : (writer.trailer host).length = trailerLen := by
  rw [trailer, segmentTrailer, length_append, length_append, length_beBytes,
    length_beBytes, length_beBytes, trailerLen]

theorem length_samples :
    (writer.samples.flatMap encodeSample).length = writer.samples.length * indexEntryLen := by
  have each : ∀ sample ∈ writer.samples, (encodeSample sample).length = indexEntryLen := by
    intro sample _
    rw [encodeSample, length_append, length_beBytes, length_beBytes, indexEntryLen]
  rw [length_flatMap, map_congr_left each, map_const', sum_replicate, smul_eq_mul]

theorem length_sealedBytes :
    (writer.sealedBytes host).length = framePrefixLen + (writer.header host.blake3).length +
      (host.encodeAll writer.buffer).length + writer.samples.length * indexEntryLen + trailerLen := by
  simp only [sealedBytes_eq, length_append, length_framePrefix, length_trailer, length_samples, Nat.add_assoc]

theorem drop_sealedBytes :
    (writer.sealedBytes host).drop ((writer.sealedBytes host).length - trailerLen) = writer.trailer host := by
  rw [length_sealedBytes, Nat.add_sub_cancel, sealedBytes_eq]
  simp only [← append_assoc]
  refine drop_left' ?_
  simp only [length_append, length_framePrefix, length_samples, Nat.add_assoc]

theorem indexLen_trailer :
    beAt 4 (writer.trailer host) 0 = writer.samples.length % 2 ^ 32 := by
  rw [trailer, segmentTrailer, append_assoc, beAt, slice, drop_zero,
    take_left' (length_beBytes ..), beNat_beBytes_mod]
  rfl

theorem compressedLen_trailer :
    beAt 8 (writer.trailer host) 8 = (host.encodeAll writer.buffer).length % 2 ^ 64 := by
  rw [trailer, segmentTrailer, beAt, slice, drop_left' (by simp),
    take_of_length_le (by simp), beNat_beBytes_mod]
  rfl

theorem headerLen_eq :
    (UInt32.ofNat (writer.header blake3).length).toNat = (writer.header blake3).length := by
  have small := writer.length_header_le blake3
  exact UInt32.toNat_ofNat_of_lt' (by show _ < 2 ^ 32; omega)

theorem parsePrefix_sealedBytes :
    parsePrefix (writer.sealedBytes host) magicSegment = .ok
      { magic := magicSegment, formatVersion := formatVersion
        headerLen := UInt32.ofNat (writer.header host.blake3).length } := by
  have small := writer.length_header_le host.blake3
  rw [sealedBytes_eq]
  refine parsePrefix_encodePrefix rfl ?_ _
  rw [headerLen_eq, maxHeaderBytes]
  omega

theorem slice_header :
    slice (writer.sealedBytes host) framePrefixLen (writer.header host.blake3).length =
      writer.header host.blake3 := by
  rw [sealedBytes_eq, slice_append _ (length_framePrefix ..) rfl]

theorem slice_compressed :
    slice (writer.sealedBytes host) (framePrefixLen + (writer.header host.blake3).length)
      (host.encodeAll writer.buffer).length = host.encodeAll writer.buffer := by
  rw [sealedBytes_eq, ← append_assoc, slice_append _ (by rw [length_append, length_framePrefix]) rfl]

theorem samples_sealedBytes :
    ((List.range writer.samples.length).map fun position =>
      let entry := slice (writer.sealedBytes host) (framePrefixLen +
        (writer.header host.blake3).length + (host.encodeAll writer.buffer).length +
        position * indexEntryLen) indexEntryLen
      (UInt64.ofNat (beAt 8 entry 0), UInt32.ofNat (beAt 4 entry 8))) = writer.samples := by
  have indexed := range_samples (writer.framePrefix host.blake3 ++ (writer.header host.blake3 ++
    host.encodeAll writer.buffer)) (writer.trailer host) writer.samples
  rwa [length_append, length_append, length_framePrefix, ← Nat.add_assoc,
    append_assoc, append_assoc, ← sealedBytes_eq] at indexed

theorem lengths_fit {base count size : Nat}
    (same : base + size % 2 ^ 64 + count % 2 ^ 32 * indexEntryLen + trailerLen =
      base + size + count * indexEntryLen + trailerLen) : count < 2 ^ 32 ∧ size < 2 ^ 64 := by
  have fewer := Nat.mod_le count (2 ^ 32)
  have smaller := Nat.mod_le size (2 ^ 64)
  have counted := Nat.mod_lt count (Nat.two_pow_pos 32)
  have sized := Nat.mod_lt size (Nat.two_pow_pos 64)
  generalize size % 2 ^ 64 = sizeKept at same smaller sized
  generalize count % 2 ^ 32 = countKept at same fewer counted
  rw [indexEntryLen] at same
  omega

/-- The trailer keeps both lengths as far as their widths go; a length cut there no longer adds up
to the length of the file. -/
theorem parseSegmentBytes_sealedBytes (id : UInt64) :
    parseSegmentBytes host (writer.sealedBytes host) id =
      if writer.samples.length < 2 ^ 32 ∧ (host.encodeAll writer.buffer).length < 2 ^ 64 then do
        let block ← decodeSegmentBlock host (host.encodeAll writer.buffer)
        checkSegmentBlock host id (writer.fields host.blake3) writer.samples block
        .ok (some { writer.metadata host id with containsFaultRelevant := false })
      else .ok none := by
  have size := length_sealedBytes host writer
  have long : ¬(writer.sealedBytes host).length < framePrefixLen + trailerLen := by omega
  have covers : ¬(writer.sealedBytes host).length <
      framePrefixLen + (writer.header host.blake3).length + trailerLen := by omega
  rw [parseSegmentBytes, if_neg long]
  simp only [drop_sealedBytes, indexLen_trailer, compressedLen_trailer, parsePrefix_sealedBytes,
    headerLen_eq, if_neg covers, slice_header, parseSegmentHeader_header]
  split_ifs with cut fits whole
  · obtain ⟨few, small⟩ := fits
    rw [Nat.mod_eq_of_lt few, Nat.mod_eq_of_lt small] at cut
    exact absurd size.symm cut
  · rfl
  · obtain ⟨few, small⟩ := whole
    rw [Nat.mod_eq_of_lt few, Nat.mod_eq_of_lt small, samples_sealedBytes, slice_compressed]
    rfl
  · rw [size] at cut
    exact absurd (lengths_fit (not_not.mp cut)) whole

/-- Metadata comes back exactly when the block is within the caps. -/
theorem parseSegmentBytes_holding {host : Host} (lawful : host.Lawful) {entries : List Entry}
    (readable : ∀ entry ∈ entries, entry.Readable host.blake3) {id : UInt64}
    {segment : SealedSegment} :
    parseSegmentBytes host ((holding entries).sealedBytes host) id = .ok (some segment) ↔
      host.Fits (holding entries).buffer ∧
        segment = { (holding entries).metadata host id with containsFaultRelevant := false } := by
  rw [parseSegmentBytes_sealedBytes]
  constructor
  · intro parsed
    split_ifs at parsed with fits
    · obtain ⟨block, decoded, checked⟩ := except_bind_eq_ok.mp parsed
      obtain ⟨_, _, parsed⟩ := except_bind_eq_ok.mp checked
      obtain ⟨within, _⟩ := (decodeSegmentBlock_eq_ok lawful).mp decoded
      cases parsed
      exact ⟨within, rfl⟩
    · cases parsed
  · rintro ⟨within, rfl⟩
    have bounded := within.2
    rw [maxDecompressedSegmentBytes] at bounded
    have small : (holding entries).buffer.length < 2 ^ 64 := by omega
    have frames : 48 * entries.length ≤ (holding entries).buffer.length :=
      length_le_length_frames readable
    have fewer := length_samples_holding_le entries
    have fits : (holding entries).samples.length < 2 ^ 32 ∧
        (host.encodeAll (holding entries).buffer).length < 2 ^ 64 := by
      have compressed := within.1
      rw [maxCompressedSegmentBytes] at compressed
      omega
    rw [if_pos fits, (decodeSegmentBlock_eq_ok lawful).mpr ⟨within, rfl⟩]
    exact except_bind_eq_ok.mpr ⟨_, rfl, except_bind_eq_ok.mpr
      ⟨(), checkSegmentBlock_holding readable id small, rfl⟩⟩

end SegmentWriter

end Ldgr
