import Ldgr.Format.PayloadProperties

/-! Entries: the decoder undoes the encoder, and which decoded bytes are the encoder's. -/

namespace Ldgr.Format

open Ldgr.Base Ldgr.Format.Cbor

/-! ## Entries -/

theorem fromTag_eq_some {tag : UInt64} {kind : EntryKind} :
    EntryKind.fromTag tag = some kind ↔ tag = kind.tag := by
  constructor
  · intro known
    unfold EntryKind.fromTag at known
    split at known <;> cases known <;> exact UInt64.toNat.inj ‹_›
  · intro same
    subst same
    cases kind <;> rfl

theorem decodeKind_reads : ItemReads 1 decodeKind (encodedAs fun kind => unsigned kind.tag) := by
  refine (readUnsigned_reads.bind fun tag => show ItemReads 0 _
    (fun kind front => EntryKind.fromTag tag = some kind ∧ front = []) from ?_).congr fun kind front => ?_
  · split
    · rename_i kind found
      refine (Reads.pure kind).congr fun other front => ?_
      rw [Form.pure, found, Option.some.injEq, eq_comm]
    · rename_i missing
      exact Reads.fail.congr fun other front => by rw [missing]; simp
  · simp [Form.bind, encodedAs, fromTag_eq_some]

theorem readBounded_reads {α : Type} (limit : Nat) {read : ItemReader α} {encode : α → Bytes}
    (each : ItemReads 1 read (encodedAs encode)) :
    ItemReads 1 (readBounded limit read) (encodedWhen
      (fun values => array values.length ++ values.flatMap encode)
      fun values => values.length ≤ limit) := by
  have exact : ItemReads 1 read (encodedWhen encode fun _ => True) :=
    each.congr fun _ _ => ⟨fun formed => ⟨formed, trivial⟩, And.left⟩
  have inner (count : Nat) : ItemReads count (Reader.many read count)
      (fun values front => values.length = count ∧ Form.Run (encodedWhen encode fun _ => True) values front) :=
    ⟨exact.accepts.many, exact.sound.many⟩
  refine (counted_reads inner fun _ formed => (inner _).accepts.long formed).congr fun values front => ?_
  simp only [run_encodedWhen, encodedWhen]
  constructor
  · intro formed
    obtain ⟨_, _, rfl, bounded, rfl, rfl, _⟩ := formed
    exact ⟨rfl, bounded⟩
  · intro formed
    obtain ⟨rfl, bounded⟩ := formed
    exact ⟨_, _, rfl, bounded, rfl, rfl, fun _ _ => trivial⟩

/-- The decoder's checks on an entry. -/
structure EntryData.Valid (data : EntryData) : Prop where
  version : data.formatVersion = Ldgr.Format.formatVersion
  parents : data.parents.length ≤ maxParentsPerEntry
  vectorClock : data.vectorClock.length ≤ maxVectorClockActors
  kind : data.payload.kind = data.kind
  payload : data.payload.Valid

theorem decodeEntry_reads : Reads Wire (2 ^ 64) 1 decodeEntry
    (fun data front => data.Valid ∧ front = data.header ++ data.payload.encoding)
    (fun data front => data.Valid ∧ ∃ outer inner, outer ≤ 4 ∧ inner ≤ 4 ∧
      front = data.header ++ data.payload.declaring outer inner) := by
  refine (fields_reads ((readU32_reads _).bind fun version => .require (decodeKind_reads.bind fun kind =>
    decodeActor_reads.bind fun actor => (readBounded_reads _ decodeHash_reads).bind fun parents =>
      (readBounded_reads _ readUnsigned_reads).bind fun clock => readUnsigned_reads.bind fun sequence =>
        (decodePayload_reads kind).bind fun payload =>
          .pure (EntryData.mk version kind actor parents clock sequence payload)))
    (by decide)).mono ?_ ?_
  · intro data front formed
    obtain ⟨version, kind, actor, parents, clock, sequence, payload⟩ := data
    obtain ⟨⟨current, parentsFit, clockFits, same, valid⟩, rfl⟩ := formed
    simp only [Form.bind, Form.guard, Form.pure, encodedAs, encodedWhen, encodedForm]
    refine ⟨_, ?_, version, _, _, rfl, rfl, current, kind, _, _, rfl, rfl, actor, _, _, rfl, rfl,
      parents, _, _, rfl, ⟨rfl, parentsFit⟩, clock, _, _, rfl, ⟨rfl, clockFits⟩, sequence, _, _, rfl,
      rfl, payload, _, [], rfl, ⟨same, valid, rfl⟩, rfl, rfl⟩
    simp [EntryData.header]
  · intro data front formed
    simp only [Form.bind, Form.guard, Form.pure, encodedAs, encodedWhen, declaredForm] at formed
    obtain ⟨_, rfl, version, _, _, rfl, rfl, current, kind, _, _, rfl, rfl, actor, _, _, rfl, rfl,
      parents, _, _, rfl, ⟨rfl, parentsFit⟩, clock, _, _, rfl, ⟨rfl, clockFits⟩, sequence, _, _, rfl,
      rfl, payload, _, _, rfl, ⟨same, valid, outer, inner, outside, inside, rfl⟩, rfl, rfl⟩ := formed
    refine ⟨⟨current, parentsFit, clockFits, same, valid⟩, outer, inner, outside, inside, ?_⟩
    simp [EntryData.header]

/-! ## Encoded entries -/

theorem itemSequence_encodeHash (hash : EntryHash) : ItemSequence (encodeHash hash) :=
  itemSequence_bytes _

theorem itemSequence_encodeActor (actor : ActorId) : ItemSequence (encodeActor actor) :=
  itemSequence_unsigned _

theorem itemSequence_encodeMessageId (messageId : MessageId) : ItemSequence (encodeMessageId messageId) :=
  itemSequence_append (itemSequence_append (itemSequence_array 2) (itemSequence_encodeActor _))
    (itemSequence_unsigned _)

theorem itemSequence_encodePathRef (pathRef : PathRef) : ItemSequence (encodePathRef pathRef) :=
  itemSequence_append (itemSequence_append (itemSequence_array 2) (itemSequence_bytes _)) (itemSequence_bytes _)

theorem itemSequence_encodeIdempotencyKey (key : Option Bytes) : ItemSequence (encodeIdempotencyKey key) := by
  cases key with
  | none => exact @itemSequence_encode .null trivial
  | some key => exact itemSequence_bytes key

namespace EntryPayload

theorem fields_items (payload : EntryPayload) : ItemSequence payload.fields := by
  unfold fields encodeFsWrite encodeObserved encodeFaultPayload encodeCrashOperation
  repeat' split
  all_goals with_reducible repeat' first
    | apply itemSequence_array
    | apply itemSequence_unsigned
    | apply itemSequence_bytes
    | apply itemSequence_boolean
    | apply itemSequence_encodeHash
    | apply itemSequence_encodeActor
    | apply itemSequence_encodeMessageId
    | apply itemSequence_encodePathRef
    | apply itemSequence_encodeIdempotencyKey
    | exact itemSequence_flatMap fun pathRef _ => itemSequence_encodePathRef pathRef
    | apply itemSequence_append

variable {payload : EntryPayload}

theorem encode_items {out : Bytes} (encoded : payload.encode = .ok out) : ItemSequence out := by
  unfold encode at encoded
  split at encoded
  · cases encoded
    exact fields_items payload
  · rename_i value message _
    obtain ⟨bytes, written, finished⟩ := except_bind_eq_ok.mp encoded
    cases finished
    refine itemSequence_append (fields_items payload) ?_
    cases result : value.tryEncode with
    | error fault =>
      rw [result] at written
      cases written
    | ok bytes =>
      rw [result] at written
      cases written
      exact CanonicalValue.tryEncode_items result

theorem encode_eq_ok (ordered : ∀ value ∈ payload.value?, value.1.KeysOrdered) {out : Bytes} :
    payload.encode = .ok out ↔ out = payload.encoding ∧ ∀ value ∈ payload.value?, value.1.Encodable := by
  unfold encode encoding
  cases carried : payload.value? with
  | none =>
    simp [pure, Except.pure, eq_comm]
  | some carriedValue =>
    obtain ⟨value, message⟩ := carriedValue
    have written := @CanonicalValue.tryEncode_eq_ok value (ordered _ carried)
    simp only [Option.mem_some_iff, forall_eq', Option.elim_some, except_bind_eq_ok]
    constructor
    · intro encoded
      obtain ⟨bytes, result, finished⟩ := encoded
      cases finished
      cases tried : value.tryEncode with
      | error fault =>
        rw [tried] at result
        cases result
      | ok bytes =>
        rw [tried] at result
        cases result
        obtain ⟨rfl, encodable⟩ := written.mp tried
        exact ⟨rfl, encodable⟩
    · intro form
      obtain ⟨rfl, encodable⟩ := form
      refine ⟨value.encoding, ?_, rfl⟩
      rw [written.mpr ⟨rfl, encodable⟩]
      rfl

theorem Valid.keysOrdered (valid : payload.Valid) : ∀ value ∈ payload.value?, value.1.KeysOrdered :=
  fun value carried => CanonicalValue.Valid.keysOrdered _ (valid.value value carried).1

end EntryPayload

namespace EntryData

theorem header_items (data : EntryData) : ItemSequence data.header := by
  unfold header
  with_reducible repeat' first
    | apply itemSequence_array
    | apply itemSequence_unsigned
    | apply itemSequence_encodeActor
    | exact itemSequence_flatMap fun hash _ => itemSequence_encodeHash hash
    | exact itemSequence_flatMap fun component _ => itemSequence_unsigned component
    | apply itemSequence_append

variable {data : EntryData} {out : Bytes}

theorem tryCanonicalBytes_eq_ok : data.tryCanonicalBytes = .ok out ↔ data.parents.length ≤ maxParentsPerEntry ∧
      ∃ payload, data.payload.encode = .ok payload ∧ out = data.header ++ payload ∧
        out.length ≤ maxEntryBytes := by
  unfold tryCanonicalBytes
  constructor
  · intro encoded
    split at encoded
    · cases encoded
    · obtain ⟨payload, written, encoded⟩ := except_bind_eq_ok.mp encoded
      dsimp only at encoded
      split at encoded
      · cases encoded
      · cases encoded
        exact ⟨Nat.le_of_not_lt ‹_›, payload, written, rfl, Nat.le_of_not_lt ‹_›⟩
  · intro form
    obtain ⟨few, payload, written, rfl, small⟩ := form
    rw [if_neg (Nat.not_lt.mpr few), written]
    exact if_neg (Nat.not_lt.mpr small)

theorem fromCanonicalBytes_eq_ok {input : Bytes} : fromCanonicalBytes input = .ok data ↔
      input.length ≤ maxEntryBytes ∧ decodeEntry input = .ok (data, []) := by
  unfold fromCanonicalBytes
  constructor
  · intro decoded
    split at decoded
    · cases decoded
    · obtain ⟨⟨found, rest⟩, read, decoded⟩ := except_bind_eq_ok.mp decoded
      cases rest with
      | nil =>
        cases decoded
        exact ⟨Nat.le_of_not_lt ‹_›, read⟩
      | cons byte rest => cases decoded
  · intro form
    obtain ⟨small, read⟩ := form
    rw [if_neg (Nat.not_lt.mpr small), read]
    rfl

theorem fromCanonicalBytes_of_valid (valid : data.Valid)
    (encoded : data.tryCanonicalBytes = .ok out) : fromCanonicalBytes out = .ok data := by
  obtain ⟨_, payload, written, rfl, small⟩ := tryCanonicalBytes_eq_ok.mp encoded
  obtain ⟨rfl, _⟩ := (EntryPayload.encode_eq_ok valid.payload.keysOrdered).mp written
  have fits : (data.header ++ data.payload.encoding).length < 2 ^ 64 :=
    Nat.lt_of_le_of_lt small (by decide)
  have read := decodeEntry_reads.accepts.reads ⟨valid, rfl⟩ fits []
  rw [List.append_nil] at read
  exact fromCanonicalBytes_eq_ok.mpr ⟨small, read⟩

theorem tryCanonicalBytes_wire (encoded : data.tryCanonicalBytes = .ok out) : Wire out := by
  obtain ⟨_, payload, written, rfl, small⟩ := tryCanonicalBytes_eq_ok.mp encoded
  exact ⟨itemSequence_append data.header_items (EntryPayload.encode_items written),
    Nat.lt_of_le_of_lt small (by decide)⟩

theorem fromCanonicalBytes_sound {input : Bytes} (items : ItemSequence input)
    (decoded : fromCanonicalBytes input = .ok data) :
    data.Valid ∧ ∃ outer inner, outer ≤ 4 ∧ inner ≤ 4 ∧
      input = data.header ++ data.payload.declaring outer inner := by
  obtain ⟨small, read⟩ := fromCanonicalBytes_eq_ok.mp decoded
  have wire : Wire input := ⟨items, Nat.lt_of_le_of_lt small (by decide)⟩
  obtain ⟨_, ⟨valid, outer, inner, outside, inside, rfl⟩, whole, _⟩ :=
    decodeEntry_reads.sound.split wire read
  rw [List.append_nil] at whole
  exact ⟨valid, outer, inner, outside, inside, whole⟩

end EntryData

theorem Path.length_canonicalize {raw canonical : Bytes} (result : Path.canonicalize raw = .ok canonical) :
    canonical.length ≤ maxCanonicalPathBytes := by
  unfold Path.canonicalize at result
  split at result
  · cases result
  · obtain ⟨kept, _, result⟩ := except_bind_eq_ok.mp result
    dsimp only at result
    split at result
    · cases result
    · cases result
      exact Nat.le_of_not_lt ‹_›

theorem PathRef.decodable_of_fixpoint {pathRef : PathRef}
    (fixpoint : Path.canonicalize pathRef.canonicalPath = .ok pathRef.canonicalPath) :
    pathRef.Decodable :=
  ⟨⟨_, fixpoint⟩, Path.length_canonicalize fixpoint⟩

/-- Well-formed entries round-trip through their canonical bytes. -/
theorem EntryData.fromCanonicalBytes_tryCanonicalBytes {data : EntryData} {out : Bytes}
    (version : data.formatVersion = Ldgr.Format.formatVersion)
    (kind : data.kind = data.payload.kind)
    (parents : data.parents.length ≤ maxParentsPerEntry)
    (clock : data.vectorClock.length ≤ maxVectorClockActors)
    (paths : ∀ pathRef ∈ data.payload.paths,
      Path.canonicalize pathRef.canonicalPath = .ok pathRef.canonicalPath)
    (xorBytes : ∀ content ∈ data.payload.xorBytes, content ≠ [])
    (bit : ∀ bit ∈ data.payload.bit, bit ≤ 7)
    (ordered : ∀ value ∈ data.payload.value?, value.1.KeysOrdered)
    (encoded : data.tryCanonicalBytes = .ok out) : fromCanonicalBytes out = .ok data := by
  obtain ⟨_, payload, written, _⟩ := tryCanonicalBytes_eq_ok.mp encoded
  have encodable := ((EntryPayload.encode_eq_ok ordered).mp written).2
  have carried : data.payload.Valid :=
    ⟨fun pathRef member => PathRef.decodable_of_fixpoint (paths pathRef member), encodable, xorBytes, bit⟩
  exact fromCanonicalBytes_of_valid ⟨version, parents, clock, kind.symm, carried⟩ encoded

def allocationEntry : EntryData where
  formatVersion := formatVersion
  kind := .fsWrite
  actor := ⟨7⟩
  parents := [⟨⟨List.replicate 32 0, rfl⟩⟩]
  vectorClock := []
  sequence := 1
  payload := .fsWrite (.allocate ⟨⟨List.replicate 32 1, rfl⟩, [0x2f, 0x61]⟩)

theorem allocationEntry_roundTrips : ∃ out, allocationEntry.tryCanonicalBytes = .ok out ∧
    EntryData.fromCanonicalBytes out = .ok allocationEntry :=
  ⟨_, rfl, EntryData.fromCanonicalBytes_tryCanonicalBytes rfl rfl (by decide) (by decide)
    (by intro pathRef member; cases List.mem_singleton.mp member; rfl) nofun nofun nofun rfl⟩

end Ldgr.Format
