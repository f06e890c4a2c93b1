import Ldgr.Format.Cbor.DecodeProperties
import Ldgr.Format.EntryProperties
import Ldgr.Journal.DagProperties
import Ldgr.Journal.Segment.Frames

/-! Frames read back: clocks always decode to themselves, data exactly when it is valid. -/

namespace Ldgr

open Base Format Format.Cbor EntryData List Entry

theorem ActorId.lt_iff {left right : ActorId} : left < right ↔ left.id.toNat < right.id.toNat := by
  have unfolded : left < right ↔ left.id.toNat ≤ right.id.toNat ∧ ¬right.id.toNat ≤ left.id.toNat :=
    Iff.rfl
  rw [unfolded]
  omega

/-- Actors are 32-bit words, so there are no more ascending actors than words. -/
theorem length_le_of_ascending {α : Type} {entries : List (ActorId × α)}
    (ascending : entries.Pairwise fun left right => left.1 < right.1) :
    entries.length ≤ 2 ^ 32 := by
  have distinct : (entries.map (·.1.id.toNat)).Nodup := by
    refine (pairwise_map.mpr ?_ : List.Pairwise (· ≠ ·) _)
    exact ascending.imp fun below => Nat.ne_of_lt (ActorId.lt_iff.mp below)
  have inside : entries.map (·.1.id.toNat) ⊆ List.range (2 ^ 32) := by
    intro value member
    obtain ⟨entry, _, rfl⟩ := mem_map.mp member
    exact mem_range.mpr entry.1.id.toNat_lt
  have bounded := (distinct.subperm inside).length_le
  simpa using bounded

/-! ## Clocks -/

namespace VectorClock

theorem length_components_le (clock : VectorClock) : clock.components.entries.length ≤ 2 ^ 32 :=
  length_le_of_ascending clock.components.ascending

def parts (clock : VectorClock) : List EntryParts :=
  clock.components.entries.map fun component =>
    ((.unsigned component.1.id.toUInt64, unsigned component.1.id.toUInt64),
      (.unsigned component.2, unsigned component.2))

theorem encode_eq (clock : VectorClock) :
    clock.encode = map clock.parts.length ++ (clock.parts.flatMap EntryParts.bytes ++ []) := by
  simp [encode, parts, flatMap_map, EntryParts.bytes]

theorem length_encode_lt (clock : VectorClock) : clock.encode.length < 2 ^ 40 := by
  have components := clock.length_components_le
  have each (entries : List (ActorId × UInt64)) : (entries.flatMap fun component =>
      unsigned component.1.id.toUInt64 ++ unsigned component.2).length ≤ 18 * entries.length := by
    induction entries with
    | nil => exact Nat.le_refl 0
    | cons component rest ih =>
      have actor : (unsigned component.1.id.toUInt64).length ≤ 9 := length_major_le 0 _
      have value : (unsigned component.2).length ≤ 9 := length_major_le 0 _
      rw [flatMap_cons, length_append, length_append, length_cons]
      omega
  have all := each clock.components.entries
  have head : (map clock.components.entries.length).length ≤ 9 := length_major_le 5 _
  rw [encode, length_append]
  omega

theorem fromCanonicalBytes_encode (clock : VectorClock) : CborValue.fromCanonicalBytes clock.encode =
      .ok (.map (clock.parts.map fun entry => (entry.1.1, entry.2.1))) := by
  have nonempty (value : UInt64) : unsigned value ≠ [] :=
    ne_nil_of_length_pos (length_major_pos 0 value)
  have decodes : ∀ entry ∈ clock.parts, Decodes maxDepth [entry.1, entry.2] := by
    intro entry member
    obtain ⟨component, _, rfl⟩ := mem_map.mp member
    intro part listed
    obtain rfl | rfl : part = _ ∨ part = _ := by simpa using listed
    · exact ⟨nonempty _, decodeValue_unsigned _ _⟩
    · exact ⟨nonempty _, decodeValue_unsigned _ _⟩
  have ordered : clock.parts.Pairwise fun earlier later =>
      compareCanonicalKeys earlier.1.2 later.1.2 = .lt := by
    refine pairwise_map.mpr (clock.components.ascending.imp fun {first second} below => ?_)
    apply compareCanonicalKeys_unsigned
    rw [UInt64.lt_iff_toNat_lt, UInt32.toNat_toUInt64, UInt32.toNat_toUInt64]
    exact ActorId.lt_iff.mp below
  have fits : clock.parts.length < 2 ^ 64 := by
    have := clock.length_components_le
    rw [parts, length_map]
    omega
  apply fromCanonicalBytes_of_decodes
  rw [encode_eq]
  exact decodeValue_map decodes ordered fits []

end VectorClock

theorem decodeClockPair_component (component : ActorId × UInt64) :
    decodeClockPair (.unsigned component.1.id.toUInt64, .unsigned component.2) = .ok component := by
  have small : component.1.id.toUInt64.toNat < 2 ^ 32 := by
    rw [UInt32.toNat_toUInt64]
    exact component.1.id.toNat_lt
  simp only [decodeClockPair, if_pos small, UInt32.toUInt32_toUInt64]

theorem mapM_decodeClockPair (entries : List (ActorId × UInt64)) :
    (entries.map fun component => (CborValue.unsigned component.1.id.toUInt64,
      CborValue.unsigned component.2)).mapM decodeClockPair = .ok entries := by
  induction entries with
  | nil => rfl
  | cons component rest ih =>
    rw [map_cons, mapM_cons, decodeClockPair_component, ih]
    rfl

theorem decodeVectorClock_encode (clock : VectorClock) : decodeVectorClock clock.encode = .ok clock := by
  simp only [decodeVectorClock, clock.fromCanonicalBytes_encode, VectorClock.parts, map_map,
    Function.comp_def, mapM_decodeClockPair]
  exact congrArg (fun components => Except.ok (VectorClock.mk components))
    (SortedMap.ofList_entries clock.components)

/-! ## Payloads -/

def framed (payload : Bytes) : Bytes :=
  leBytes 8 payload.length ++ payload

theorem length_framed (payload : Bytes) : (framed payload).length = 8 + payload.length := by
  rw [framed, length_append, length_leBytes]

theorem drop_framed (payload : Bytes) : (framed payload).drop 8 = payload :=
  drop_left' (length_leBytes ..)

/-- A payload whose frame can be walked over. -/
def Sized (payload : Bytes) : Prop :=
  40 ≤ payload.length ∧ payload.length < 2 ^ 64

/-- What a frame holds after its own length. -/
def framePayload (id : EntryHash) (dataLen : Nat) (payload : Bytes) : Bytes :=
  id.digest.1 ++ (leBytes 8 dataLen ++ payload)

theorem length_framePayload (id : EntryHash) (dataLen : Nat) (payload : Bytes) :
    (framePayload id dataLen payload).length = 40 + payload.length := by
  rw [framePayload, length_append, length_append, id.digest.2, length_leBytes]
  omega

theorem writeFrame_eq (id : EntryHash) (dataLen : Nat) (payload : Bytes) :
    writeFrame id dataLen payload = framed (framePayload id dataLen payload) := by
  rw [framed, length_framePayload, writeFrame, framePayload]
  simp only [append_assoc]

theorem encodeEntryFrame_eq_ok {entry : Entry} {frame : Bytes} :
    encodeEntryFrame entry = .ok frame ↔ ∃ encoded, entry.data.tryCanonicalBytes = .ok encoded ∧
      frame = writeFrame entry.id encoded.length (encoded ++ entry.vectorClock.encode) := by
  unfold encodeEntryFrame encodeEntryPayload
  cases entry.data.tryCanonicalBytes with
  | error fault => simp [Except.map]
  | ok encoded => simp [Except.map, eq_comm]

/-- The stored hash covers all a payload holds, so only the data can still be refused. -/
theorem decodeFramePayload_framePayload (blake3 : Bytes → EntryHash) {encoded : Bytes} (id : EntryHash)
    (clock : VectorClock) (fits : encoded.length < 2 ^ 64) :
    decodeFramePayload blake3 (framePayload id encoded.length (encoded ++ clock.encode)) =
      if blake3 (encoded ++ clock.encode) = id then
        (decodeEntryData encoded).map fun data => { id, data, vectorClock := clock }
      else .error (.segmentCorrupt "entry hash mismatch; data or clock corrupted") := by
  have total := length_framePayload id encoded.length (encoded ++ clock.encode)
  rw [length_append] at total
  have long : ¬(framePayload id encoded.length (encoded ++ clock.encode)).length < minFramePayload := by
    rw [minFramePayload]
    omega
  have dataLen : leAt 8 (framePayload id encoded.length (encoded ++ clock.encode)) 32 =
      encoded.length := leAt_append _ id.digest.2 fits
  have front : (id.digest.1 ++ leBytes 8 encoded.length).length = 40 := by
    rw [length_append, id.digest.2, length_leBytes]
  have apart : framePayload id encoded.length (encoded ++ clock.encode) =
      (id.digest.1 ++ leBytes 8 encoded.length) ++ (encoded ++ clock.encode) := by
    rw [framePayload, append_assoc]
  have data : slice (framePayload id encoded.length (encoded ++ clock.encode)) 40 encoded.length =
      encoded := by
    rw [apart, slice_append _ front rfl]
  have rest : (framePayload id encoded.length (encoded ++ clock.encode)).drop
      (40 + encoded.length) = clock.encode := by
    rw [apart, ← append_assoc, drop_left' (by rw [length_append, front])]
  have stored : (framePayload id encoded.length (encoded ++ clock.encode)).take 32 = id.digest.1 :=
    take_left' id.digest.2
  have whole : ¬(framePayload id encoded.length (encoded ++ clock.encode)).length < 40 + encoded.length := by
    omega
  simp only [decodeFramePayload, dif_neg long, dataLen, if_neg whole, data, rest, stored,
    Subtype.coe_eta, ne_eq, ite_not]
  split_ifs with address
  · cases decodeEntryData encoded with
    | error fault => rfl
    | ok data =>
      simp only [decodeVectorClock_encode]
      rfl
  · rfl

namespace Entry

variable {blake3 : Bytes → EntryHash} {entry : Entry}

/-- The frame written for the entry decodes to the entry. -/
def Readable (blake3 : Bytes → EntryHash) (entry : Entry) : Prop :=
  (do decodeFramePayload blake3 ((← encodeEntryFrame entry).drop 8)) = .ok entry

/-- The frame of an entry that can be encoded. -/
def frame (entry : Entry) : Bytes :=
  (encodeEntryFrame entry).toOption.getD []

/-- What the frame of an entry decodes to. -/
def reread (blake3 : Bytes → EntryHash) (entry : Entry) : Except JournalError Entry :=
  decodeFramePayload blake3 (entry.frame.drop 8)

theorem encodeEntryFrame_cases {frame : Bytes} (encodes : encodeEntryFrame entry = .ok frame) :
    ∃ payload, frame = framed payload ∧ Sized payload := by
  obtain ⟨encoded, canonical, rfl⟩ := encodeEntryFrame_eq_ok.mp encodes
  obtain ⟨_, _, _, _, small⟩ := tryCanonicalBytes_eq_ok.mp canonical
  refine ⟨_, writeFrame_eq .., ?_⟩
  have clock := entry.vectorClock.length_encode_lt
  rw [maxEntryBytes] at small
  rw [Sized, length_framePayload, length_append]
  omega

theorem frame_eq_framed (encodes : encodeEntryFrame entry = .ok entry.frame) :
    entry.frame = framed (entry.frame.drop 8) ∧ Sized (entry.frame.drop 8) := by
  obtain ⟨payload, same, sized⟩ := encodeEntryFrame_cases encodes
  rw [same, drop_framed]
  exact ⟨rfl, sized⟩

theorem readable_iff_reread : entry.Readable blake3 ↔
    encodeEntryFrame entry = .ok entry.frame ∧ entry.reread blake3 = .ok entry := by
  rw [Readable, reread, frame]
  cases encodeEntryFrame entry with
  | error fault => exact iff_of_false nofun fun both => nomatch both.1
  | ok frame => exact (and_iff_right rfl).symm

theorem Readable.encodes (readable : entry.Readable blake3) : encodeEntryFrame entry = .ok entry.frame :=
  (readable_iff_reread.mp readable).1

theorem Readable.reread (readable : entry.Readable blake3) : entry.reread blake3 = .ok entry :=
  (readable_iff_reread.mp readable).2

theorem Readable.length_frame (readable : entry.Readable blake3) : 48 ≤ entry.frame.length := by
  obtain ⟨same, long, _⟩ := frame_eq_framed readable.encodes
  rw [same, length_framed]
  omega

theorem reread_eq_ok {found : Entry} {encoded : Bytes} (canonical : entry.data.tryCanonicalBytes = .ok encoded) :
    entry.reread blake3 = .ok found ↔
      entry.id = blake3 (encoded ++ entry.vectorClock.encode) ∧ found.id = entry.id ∧
        fromCanonicalBytes encoded = .ok found.data ∧
        found.vectorClock = entry.vectorClock := by
  obtain ⟨_, _, _, _, small⟩ := tryCanonicalBytes_eq_ok.mp canonical
  have fits : encoded.length < 2 ^ 64 := Nat.lt_of_le_of_lt small (by decide)
  have written : entry.frame = writeFrame entry.id encoded.length (encoded ++ entry.vectorClock.encode) := by
    rw [frame, encodeEntryFrame_eq_ok.mpr ⟨encoded, canonical, rfl⟩]
    rfl
  rw [Entry.reread, written, writeFrame_eq, drop_framed, decodeFramePayload_framePayload _ _ _ fits,
    decodeEntryData]
  split_ifs with address
  · obtain ⟨id, data, clock⟩ := found
    cases fromCanonicalBytes encoded with
    | error fault => simp [Except.map, Except.mapError]
    | ok decoded => simp [Except.map, Except.mapError, address, eq_comm]
  · simp [Ne.symm address]

/-- Of what can be encoded, exactly the entries with valid data and a true address are read back. -/
theorem readable_iff {encoded : Bytes} (canonical : entry.data.tryCanonicalBytes = .ok encoded)
    (address : entry.id = blake3 (encoded ++ entry.vectorClock.encode)) :
    entry.Readable blake3 ↔ entry.data.Valid := by
  have encodes : encodeEntryFrame entry = .ok entry.frame := by
    rw [frame, encodeEntryFrame_eq_ok.mpr ⟨encoded, canonical, rfl⟩]
    rfl
  rw [readable_iff_reread, and_iff_right encodes, reread_eq_ok canonical, and_iff_right address,
    and_iff_right rfl, and_iff_left rfl]
  refine ⟨fun decoded => ?_, fun valid => fromCanonicalBytes_of_valid valid canonical⟩
  exact (fromCanonicalBytes_sound (tryCanonicalBytes_wire canonical).1 decoded).1

theorem readable_of_reread {found : Entry} (encodes : encodeEntryFrame entry = .ok entry.frame)
    (foundEncodes : encodeEntryFrame found = .ok found.frame)
    (decoded : entry.reread blake3 = .ok found) (back : found.reread blake3 = .ok entry) :
    entry.Readable blake3 := by
  obtain ⟨encoded, canonical, _⟩ := encodeEntryFrame_eq_ok.mp encodes
  obtain ⟨foundBytes, foundCanonical, _⟩ := encodeEntryFrame_eq_ok.mp foundEncodes
  obtain ⟨address, _⟩ := (reread_eq_ok canonical).mp decoded
  obtain ⟨_, _, data, _⟩ := (reread_eq_ok foundCanonical).mp back
  refine (readable_iff canonical address).mpr ?_
  exact (fromCanonicalBytes_sound (tryCanonicalBytes_wire foundCanonical).1 data).1

/-- The entry a run is evaluated with: its payload, without parents and with an empty clock. -/
def standalone (payload : EntryPayload) : Entry :=
  let data : EntryData :=
    { formatVersion, kind := payload.kind, actor := ⟨1⟩, parents := [], vectorClock := []
      sequence := 0, payload }
  { id := checksum (data.tryCanonicalBytes.toOption.getD [] ++ VectorClock.new.encode)
    data
    vectorClock := .new }

theorem standalone_readable {payload : EntryPayload} (valid : payload.Valid)
    (encodes : (standalone payload).data.tryCanonicalBytes.toOption.isSome) :
    (standalone payload).Readable checksum := by
  cases canonical : (standalone payload).data.tryCanonicalBytes with
  | error fault =>
    rw [canonical] at encodes
    cases encodes
  | ok encoded =>
    refine (readable_iff canonical ?_).mpr ⟨rfl, Nat.zero_le _, Nat.zero_le _, rfl, valid⟩
    show checksum ((standalone payload).data.tryCanonicalBytes.toOption.getD [] ++ _) = _
    rw [canonical]
    rfl

end Entry

/-! ## Walks -/

theorem nextFrame_framed (front rest : Bytes) {payload : Bytes} (sized : Sized payload) :
    nextFrame (front ++ (framed payload ++ rest)) front.length =
      .ok (some (front.length + (framed payload).length, payload)) := by
  obtain ⟨long, fits⟩ := sized
  have stored : leAt 8 (front ++ (framed payload ++ rest)) front.length = payload.length := by
    rw [framed, append_assoc, leAt_append _ rfl fits]
  have held : slice (front ++ (framed payload ++ rest)) (front.length + 8) payload.length = payload := by
    rw [framed, append_assoc, ← append_assoc front, slice_append rest ?_ rfl]
    rw [length_append, length_leBytes]
  simp only [nextFrame, stored, held, length_append, length_framed, minFramePayload]
  rw [if_neg (by omega), if_neg (by omega), if_neg (by omega), if_neg (by omega), Nat.add_assoc]

/-- The entries of consecutive frames, each with the offset its frame starts at. -/
def framesFrom (start : Nat) : List Entry → List (Nat × Entry)
  | [] => []
  | entry :: entries => (start, entry) :: framesFrom (start + entry.frame.length) entries

theorem map_snd_framesFrom (start : Nat) (entries : List Entry) :
    (framesFrom start entries).map Prod.snd = entries := by
  induction entries generalizing start with
  | nil => rfl
  | cons entry entries ih => rw [framesFrom, map_cons, ih]

/-- The payloads of consecutive frames, each with the offset its frame starts at. -/
def framedAt (start : Nat) : List Bytes → List (Nat × Bytes)
  | [] => []
  | payload :: payloads => (start, payload) :: framedAt (start + (framed payload).length) payloads

theorem map_snd_framedAt (start : Nat) (payloads : List Bytes) :
    (framedAt start payloads).map Prod.snd = payloads := by
  induction payloads generalizing start with
  | nil => rfl
  | cons payload payloads ih => rw [framedAt, map_cons, ih]

variable {σ : Type} {blake3 : Bytes → EntryHash} {payloads : List Bytes} {entries : List Entry}

theorem foldFrames_framed (sized : ∀ payload ∈ payloads, Sized payload)
    (step : σ → Nat → Entry → Except JournalError σ) (front rest : Bytes) {fuel : Nat}
    (enough : payloads.length ≤ fuel) (state : σ) :
    foldFrames blake3 (front ++ (payloads.flatMap framed ++ rest))
        (front.length + (payloads.flatMap framed).length) step fuel front.length state =
      (framedAt front.length payloads).foldlM (fun state frame => do
        let entry ← decodeFramePayload blake3 frame.2
        step state frame.1 entry) state := by
  induction payloads generalizing front fuel state with
  | nil =>
    cases fuel with
    | zero => rfl
    | succ fuel => rw [foldFrames, if_pos (by simp)]; rfl
  | cons payload payloads ih =>
    obtain ⟨fuel, rfl⟩ : ∃ less, fuel = less + 1 :=
      ⟨fuel - 1, by rw [length_cons] at enough; omega⟩
    have next := nextFrame_framed front (payloads.flatMap framed ++ rest) (sized payload mem_cons_self)
    have size := length_framed payload
    rw [← append_assoc (framed payload)] at next
    rw [foldFrames, flatMap_cons, if_neg (by rw [length_append]; omega), next]
    simp only [framedAt, foldlM_cons]
    change (decodeFramePayload blake3 payload >>= fun entry => _) = _
    rw [bind_assoc]
    congr 1
    funext found
    congr 1
    funext state
    have others := ih (fun other member => sized other (mem_cons_of_mem _ member))
      (front ++ framed payload) (Nat.le_of_succ_le_succ enough) state
    rw [length_append, append_assoc] at others
    rw [append_assoc, length_append, ← Nat.add_assoc]
    exact others

/-- The entries can be written as frames. -/
abbrev Encoded (entries : List Entry) : Prop :=
  ∀ entry ∈ entries, encodeEntryFrame entry = .ok entry.frame

theorem flatMap_frame_eq_framed (encodes : Encoded entries) :
    entries.flatMap frame = (entries.map fun entry => entry.frame.drop 8).flatMap framed := by
  rw [flatMap_map]
  exact flatMap_congr fun entry member => (frame_eq_framed (encodes entry member)).1

theorem framedAt_frames (encodes : Encoded entries) (start : Nat) :
    framedAt start (entries.map fun entry => entry.frame.drop 8) =
      (framesFrom start entries).map fun frame => (frame.1, frame.2.frame.drop 8) := by
  induction entries generalizing start with
  | nil => rfl
  | cons entry entries ih =>
    rw [map_cons, framedAt, framesFrom, map_cons, ← (frame_eq_framed (encodes entry mem_cons_self)).1,
      ih fun other member => encodes other (mem_cons_of_mem _ member)]

theorem foldFrames_encoded (encodes : Encoded entries)
    (step : σ → Nat → Entry → Except JournalError σ) (front rest : Bytes) {fuel : Nat}
    (enough : entries.length ≤ fuel) (state : σ) :
    foldFrames blake3 (front ++ (entries.flatMap frame ++ rest))
        (front.length + (entries.flatMap frame).length) step fuel front.length state =
      (framesFrom front.length entries).foldlM (fun state frame => do
        let entry ← frame.2.reread blake3
        step state frame.1 entry) state := by
  rw [flatMap_frame_eq_framed encodes, foldFrames_framed
    (forall_mem_map.mpr fun entry member => (frame_eq_framed (encodes entry member)).2)
    step front rest (by rwa [length_map]), framedAt_frames encodes, foldlM_map]
  rfl

theorem foldFrames_frames (readable : ∀ entry ∈ entries, entry.Readable blake3)
    (step : σ → Nat → Entry → Except JournalError σ) (front rest : Bytes) {fuel : Nat}
    (enough : entries.length ≤ fuel) (state : σ) :
    foldFrames blake3 (front ++ (entries.flatMap frame ++ rest))
        (front.length + (entries.flatMap frame).length) step fuel front.length state =
      (framesFrom front.length entries).foldlM (fun state frame => step state frame.1 frame.2)
        state := by
  rw [foldFrames_encoded (fun entry member => (readable entry member).encodes) step front rest enough]
  generalize front.length = start
  induction entries generalizing start state fuel with
  | nil => rfl
  | cons entry entries ih =>
    rw [framesFrom, foldlM_cons, foldlM_cons, (readable entry mem_cons_self).reread]
    change (step state start entry >>= fun state => _) = _
    congr 1
    funext state
    exact ih (fun entry member => readable entry (mem_cons_of_mem _ member)) (Nat.le_of_succ_le enough) state _

theorem length_le_length_frames (readable : ∀ entry ∈ entries, entry.Readable blake3) :
    48 * entries.length ≤ (entries.flatMap frame).length := by
  induction entries with
  | nil => exact Nat.le_refl 0
  | cons entry entries ih =>
    have rest := ih fun entry member => readable entry (mem_cons_of_mem _ member)
    have first := (readable entry mem_cons_self).length_frame
    rw [flatMap_cons, length_append, length_cons]
    omega

theorem length_le_of_framed (payloads : List Bytes) : payloads.length ≤ (payloads.flatMap framed).length := by
  induction payloads with
  | nil => exact Nat.le_refl 0
  | cons payload payloads ih =>
    rw [flatMap_cons, length_append, length_cons, length_framed]
    omega

theorem length_le_of_encodes (encodes : Encoded entries) :
    entries.length ≤ (entries.flatMap frame).length := by
  have framed := length_le_of_framed (entries.map fun entry => entry.frame.drop 8)
  rwa [length_map, ← flatMap_frame_eq_framed encodes] at framed

theorem collect_decoded {β : Type} (decode : β → Except JournalError Entry) (keep : Entry → Bool)
    (frames : List (Nat × β)) (before : List Entry) :
    frames.foldlM (fun found frame => do
        let entry ← decode frame.2
        .ok (if keep entry then found ++ [entry] else found)) before =
      ((frames.map Prod.snd).mapM decode).map fun found => before ++ found.filter keep := by
  induction frames generalizing before with
  | nil => simp [Except.map, pure, Except.pure]
  | cons frame frames ih =>
    rw [foldlM_cons, map_cons, mapM_cons]
    cases decode frame.2 with
    | error fault => rfl
    | ok found =>
      refine (ih _).trans ?_
      cases (frames.map Prod.snd).mapM decode with
      | error fault => rfl
      | ok others =>
        refine congrArg Except.ok ?_
        cases kept : keep found <;> simp [kept]

theorem collect_reread (keep : Entry → Bool) (start : Nat) (entries before : List Entry) :
    (framesFrom start entries).foldlM (fun found frame => do
        let entry ← frame.2.reread blake3
        .ok (if keep entry then found ++ [entry] else found)) before =
      (entries.mapM (reread blake3)).map fun found => before ++ found.filter keep := by
  rw [collect_decoded, map_snd_framesFrom]

theorem blockEntries_framed (sized : ∀ payload ∈ payloads, Sized payload) :
    blockEntries blake3 (payloads.flatMap framed) = payloads.mapM (decodeFramePayload blake3) := by
  have walk := @foldFrames_framed _ blake3 _ sized (fun entries _ entry => .ok (entries ++ [entry])) [] [] _
    (length_le_of_framed payloads) []
  rw [nil_append, append_nil, length_nil, Nat.zero_add] at walk
  refine walk.trans ((collect_decoded _ (fun _ => true) (framedAt 0 payloads) []).trans ?_)
  rw [map_snd_framedAt]
  cases payloads.mapM (decodeFramePayload blake3) with
  | error fault => rfl
  | ok found => exact congrArg Except.ok (by simp)

theorem blockEntries_encoded (encodes : Encoded entries) :
    blockEntries blake3 (entries.flatMap frame) = entries.mapM (reread blake3) := by
  rw [flatMap_frame_eq_framed encodes, blockEntries_framed
    (forall_mem_map.mpr fun entry member => (frame_eq_framed (encodes entry member)).2),
    mapM_map]
  rfl

theorem mapM_reread (readable : ∀ entry ∈ entries, entry.Readable blake3) :
    entries.mapM (reread blake3) = .ok entries :=
  except_mapM_eq_ok.mpr (forall₂_same.mpr fun entry member => (readable entry member).reread)

theorem blockEntries_frames (readable : ∀ entry ∈ entries, entry.Readable blake3) :
    blockEntries blake3 (entries.flatMap frame) = .ok entries :=
  (blockEntries_encoded fun entry member => (readable entry member).encodes).trans (mapM_reread readable)

end Ldgr
