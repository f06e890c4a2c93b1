import Ldgr.Format.EntryProperties

/-! Which decodable byte strings are the canonical bytes of what they decode to: item sequences whose
observed results, faults and crash operations declare the number of items they hold. -/

namespace Ldgr.Format

open Ldgr.Base Ldgr.Format.Cbor FaultPayload EntryPayload

/-! ## Declared lengths -/

def declaredLength : ItemReader Nat := do
  let (_, length) ← decodeHeader
  pure length.toNat

def skipElements {α : Type} (read : ItemReader α) : ItemReader (List α) := do
  let count ← declaredLength
  Reader.many read count

/-- Skips to the payload of an entry and returns its tag, actor and sequence. -/
def skipToPayload : ItemReader (UInt64 × UInt64 × UInt64) := do
  let _ ← declaredLength
  let _ ← readUnsigned
  let tag ← readUnsigned
  let actor ← readUnsigned
  let _ ← skipElements readBytes
  let _ ← skipElements readUnsigned
  let sequence ← readUnsigned
  pure (tag, actor, sequence)

/-- Whether an observed result declares the number of items its discriminant has. -/
def observedAgrees : ItemReader Bool := do
  let _ ← declaredLength
  let _ ← declaredLength
  let _ ← readBytes
  let _ ← readBytes
  let _ ← readUnsigned
  let _ ← readUnsigned
  let declared ← declaredLength
  let discriminant ← readUnsigned
  pure (declared = ObservedRead.arity discriminant)

/-- The same for the crash operation of a fault, if its discriminant has one. -/
def crashAgrees (discriminant : UInt64) : ItemReader Bool :=
  if discriminant = 5 then do
    let _ ← readUnsigned
    let declared ← declaredLength
    let operation ← readUnsigned
    pure (declared = CrashOperation.arity operation)
  else
    pure true

def faultAgrees : ItemReader Bool := do
  let declared ← declaredLength
  let discriminant ← readUnsigned
  let crash ← crashAgrees discriminant
  pure (declared = arity discriminant ∧ crash)

def aritiesAgree : ItemReader Bool := do
  let (tag, _) ← skipToPayload
  if tag = EntryKind.fsRead.tag then
    observedAgrees
  else if tag = EntryKind.fault.tag then
    faultAgrees
  else
    pure true

/-- Every observed result, fault and crash operation of an entry declares its own length. -/
def AritiesAgree (input : Bytes) : Prop :=
  ∃ rest, aritiesAgree input = .ok (true, rest)

/-! ## What they are on an entry -/

theorem declaredLength_array {length : Nat} (small : length < 2 ^ 64) (rest : Bytes) :
    declaredLength (array length ++ rest) = .ok (length, rest) := by
  have header : decodeHeader (array length ++ rest) = .ok ((4, UInt64.ofNat length), rest) :=
    decodeHeader_eq_ok.mpr ⟨by decide, rfl⟩
  refine (Reader.bind_of_ok header).trans ?_
  exact congrArg (fun found => Except.ok (found, rest)) (UInt64.toNat_ofNat_of_lt' small)

theorem readUnsigned_append (value : UInt64) (rest : Bytes) :
    readUnsigned (unsigned value ++ rest) = .ok (value, rest) := by
  refine readUnsigned_reads.accepts.reads rfl ?_ rest
  exact Nat.lt_of_le_of_lt (length_major_le 0 value) (by decide)

theorem readBytes_append {content : Bytes} (fits : (bytes content).length < 2 ^ 64) (rest : Bytes) :
    readBytes (bytes content ++ rest) = .ok (content, rest) :=
  readBytes_reads.accepts.reads rfl fits rest

theorem skipElements_flatMap {α : Type} {read : ItemReader α} {encode : α → Bytes}
    (each : ItemReads 1 read (encodedAs encode)) {values : List α}
    (fits : (values.flatMap encode).length < 2 ^ 64) (rest : Bytes) :
    skipElements read (array values.length ++ (values.flatMap encode ++ rest)) = .ok (values, rest) := by
  have run : Form.Run (encodedAs encode) values (values.flatMap encode) := by
    clear fits
    induction values with
    | nil => exact .nil
    | cons value values ih => exact .cons rfl ih
  have counted := each.accepts.many.long ⟨rfl, run⟩
  refine (Reader.bind_of_ok (declaredLength_array (by omega) _)).trans ?_
  exact each.accepts.many.reads ⟨rfl, run⟩ fits rest

theorem skipToPayload_header {data : EntryData} (fits : data.header.length < 2 ^ 64) (rest : Bytes) :
    skipToPayload (data.header ++ rest) =
      .ok ((data.kind.tag, data.actor.id.toUInt64, data.sequence), rest) := by
  have hashes : data.parents.flatMap encodeHash = (data.parents.map EntryHash.toFramedBytes).flatMap bytes := by
    rw [List.flatMap_map]
    rfl
  have count : data.parents.length = (data.parents.map EntryHash.toFramedBytes).length :=
    (List.length_map ..).symm
  simp only [EntryData.header, List.length_append, hashes] at fits
  simp only [EntryData.header, List.append_assoc, skipToPayload, Reader.bind_eq_ok, hashes, count, encodeActor]
  exact ⟨_, _, declaredLength_array (by decide) _, _, _, readUnsigned_append _ _, _, _,
    readUnsigned_append _ _, _, _, readUnsigned_append _ _, _, _,
    skipElements_flatMap readBytes_reads (by omega) _, _, _,
    skipElements_flatMap readUnsigned_reads (by omega) _, _, _, readUnsigned_append _ _, rfl⟩

theorem observedAgrees_declaring (read : FsReadPayload) {outer : Nat} (small : outer < 2 ^ 64)
    (fits : (read.declaring outer).length < 2 ^ 64) :
    ∃ rest, observedAgrees (read.declaring outer) =
      .ok (decide (outer = ObservedRead.arity read.observed.discriminant), rest) := by
  simp only [FsReadPayload.declaring, encodePathRef, List.length_append] at fits
  refine ⟨read.observed.tail, ?_⟩
  simp only [FsReadPayload.declaring, encodePathRef, ObservedRead.body, List.append_assoc,
    observedAgrees, Reader.bind_eq_ok]
  exact ⟨_, _, declaredLength_array (by decide) _, _, _, declaredLength_array (by decide) _, _, _,
    readBytes_append (by omega) _, _, _, readBytes_append (by omega) _, _, _,
    readUnsigned_append _ _, _, _, readUnsigned_append _ _, _, _, declaredLength_array small _, _, _,
    readUnsigned_append _ _, rfl⟩

theorem crashAgrees_tail (injected : FaultPayload) {inner : Nat} (inside : inner < 2 ^ 64) :
    ∃ rest, crashAgrees injected.discriminant (injected.tail inner) =
      .ok (injected.crashAgrees inner, rest) := by
  cases injected with
  | crashActor actor operation =>
    refine ⟨operation.tail, ?_⟩
    have same : (crashActor actor operation).discriminant = 5 := rfl
    simp only [crashAgrees, same, if_true, tail, CrashOperation.body, encodeActor,
      Reader.bind_eq_ok]
    exact ⟨_, _, readUnsigned_append _ _, _, _, declaredLength_array inside _, _, _,
      readUnsigned_append _ _, rfl⟩
  | _ => exact ⟨_, rfl⟩

theorem faultAgrees_declaring (injected : FaultPayload) {outer inner : Nat} (outside : outer < 2 ^ 64)
    (inside : inner < 2 ^ 64) :
    ∃ rest, faultAgrees (array outer ++ injected.body inner) =
      .ok (decide (outer = arity injected.discriminant ∧
        injected.crashAgrees inner = true), rest) := by
  obtain ⟨rest, crash⟩ := crashAgrees_tail injected inside
  refine ⟨rest, ?_⟩
  simp only [faultAgrees, body, Reader.bind_eq_ok]
  exact ⟨_, _, declaredLength_array outside _, _, _, readUnsigned_append _ _, _, _, crash, rfl⟩

private theorem answers_true {result : Except CborError (Bool × Bytes)} {condition : Prop}
    [Decidable condition] (answer : ∃ rest, result = .ok (decide condition, rest)) :
    (∃ rest, result = .ok (true, rest)) ↔ condition := by
  obtain ⟨rest, rfl⟩ := answer
  simp

/-- On an entry, the check is whether the declared lengths are those of the encoder. -/
theorem aritiesAgree_declaring {data : EntryData} (kind : data.payload.kind = data.kind)
    {outer inner : Nat} (outside : outer ≤ 4) (inside : inner ≤ 4)
    (fits : (data.header ++ data.payload.declaring outer inner).length < 2 ^ 64) :
    AritiesAgree (data.header ++ data.payload.declaring outer inner) ↔ data.payload.Agrees outer inner := by
  rw [List.length_append] at fits
  have skipped : aritiesAgree (data.header ++ data.payload.declaring outer inner) = _ :=
    Reader.bind_of_ok (skipToPayload_header (by omega) _)
  have payloadFits : (data.payload.declaring outer inner).length < 2 ^ 64 := by omega
  rw [AritiesAgree, skipped, ← kind]
  generalize data.payload = payload at payloadFits
  cases payload with
  | fsRead read =>
    have answer := answers_true (observedAgrees_declaring read (by omega) payloadFits)
    exact answer
  | fault injected =>
    have answer := answers_true (@faultAgrees_declaring injected outer inner (by omega) (by omega))
    exact answer
  | _ => exact ⟨fun _ => trivial, fun _ => ⟨_, rfl⟩⟩

/-! ## Canonicality -/

theorem array_append_inj {first second : Nat} (firstSmall : first ≤ 4) (secondSmall : second ≤ 4)
    {left right : Bytes} (same : array first ++ left = array second ++ right) :
    first = second ∧ left = right := by
  have read := declaredLength_array (Nat.lt_of_le_of_lt firstSmall (by decide)) left
  rw [same, declaredLength_array (Nat.lt_of_le_of_lt secondSmall (by decide)) right] at read
  cases read
  exact ⟨rfl, rfl⟩

theorem ObservedRead.arity_le_four (observed : ObservedRead) : arity observed.discriminant ≤ 4 := by
  cases observed <;> simp [arity, discriminant]

theorem CrashOperation.arity_le_four (operation : CrashOperation) : arity operation.discriminant ≤ 4 := by
  cases operation <;> simp [arity, discriminant]

theorem FaultPayload.arity_le_four (injected : FaultPayload) : arity injected.discriminant ≤ 4 := by
  cases injected <;> simp [arity, discriminant]

/-- Only the encoder's lengths give the encoder's bytes. -/
theorem EntryPayload.agrees_of_declaring {payload : EntryPayload} {outer inner : Nat}
    (outside : outer ≤ 4) (inside : inner ≤ 4)
    (same : payload.declaring outer inner = payload.encoding) : payload.Agrees outer inner := by
  cases payload with
  | fsRead read =>
    have canonical : (fsRead read).encoding =
        read.declaring (ObservedRead.arity read.observed.discriminant) :=
      (List.append_nil _).trans read.declaring_arity.symm
    rw [canonical] at same
    exact (array_append_inj outside read.observed.arity_le_four (List.append_cancel_left same)).1
  | fault injected =>
    have canonical : (fault injected).encoding =
        array (arity injected.discriminant) ++ injected.body injected.crashArity :=
      (List.append_nil _).trans injected.encode_eq
    rw [canonical] at same
    obtain ⟨rfl, bodies⟩ := array_append_inj outside injected.arity_le_four same
    refine ⟨rfl, ?_⟩
    cases injected with
    | crashActor actor operation =>
      have tails := List.append_cancel_left (List.append_cancel_left bodies)
      exact decide_eq_true (array_append_inj inside operation.arity_le_four tails).1
    | _ => rfl
  | _ => trivial

/-- Decoded bytes are the canonical bytes of the entry exactly when they are an item sequence whose
declared lengths agree. -/
theorem EntryData.tryCanonicalBytes_fromCanonicalBytes {input : Bytes} {data : EntryData}
    (decoded : fromCanonicalBytes input = .ok data) :
    data.tryCanonicalBytes = .ok input ↔ ItemSequence input ∧ AritiesAgree input := by
  have small := (fromCanonicalBytes_eq_ok.mp decoded).1
  have fits : input.length < 2 ^ 64 := Nat.lt_of_le_of_lt small (by decide)
  constructor
  · intro encoded
    have items := (tryCanonicalBytes_wire encoded).items
    obtain ⟨valid, outer, inner, outside, inside, rfl⟩ := fromCanonicalBytes_sound items decoded
    obtain ⟨_, payload, written, whole, _⟩ := tryCanonicalBytes_eq_ok.mp encoded
    obtain ⟨rfl, _⟩ := (encode_eq_ok valid.payload.keysOrdered).mp written
    have agrees := agrees_of_declaring outside inside (List.append_cancel_left whole)
    exact ⟨items, (aritiesAgree_declaring valid.kind outside inside fits).mpr agrees⟩
  · intro canonical
    obtain ⟨items, agree⟩ := canonical
    obtain ⟨valid, outer, inner, outside, inside, rfl⟩ := fromCanonicalBytes_sound items decoded
    have agrees := (aritiesAgree_declaring valid.kind outside inside fits).mp agree
    rw [declaring_of_agrees agrees] at small ⊢
    exact tryCanonicalBytes_eq_ok.mpr ⟨valid.parents, _,
      (encode_eq_ok valid.payload.keysOrdered).mpr ⟨rfl, valid.payload.value⟩, rfl, small⟩

def clockEntry : EntryData where
  formatVersion := formatVersion
  kind := .clockRead
  actor := ⟨0⟩
  parents := []
  vectorClock := []
  sequence := 0
  payload := .clockRead 32

theorem clockEntry_canonical : ItemSequence [0x87, 0x03, 0x05, 0x00, 0x80, 0x80, 0x00, 0x81, 0x18, 0x20] ∧
      AritiesAgree [0x87, 0x03, 0x05, 0x00, 0x80, 0x80, 0x00, 0x81, 0x18, 0x20] :=
  (EntryData.tryCanonicalBytes_fromCanonicalBytes
    (rfl : EntryData.fromCanonicalBytes _ = .ok clockEntry)).mp rfl

/-- The ticks written as a one-byte simple value decode to the same entry. -/
theorem clockEntry_malleable :
    EntryData.fromCanonicalBytes [0x87, 0x03, 0x05, 0x00, 0x80, 0x80, 0x00, 0x81, 0xf8, 0x20] = .ok clockEntry ∧
      clockEntry.tryCanonicalBytes ≠ .ok [0x87, 0x03, 0x05, 0x00, 0x80, 0x80, 0x00, 0x81, 0xf8, 0x20] := by
  refine ⟨rfl, fun same => ?_⟩
  change Except.ok [0x87, 0x03, 0x05, 0x00, 0x80, 0x80, 0x00, 0x81, 0x18, 0x20] = _ at same
  exact absurd (Except.ok.inj same) (by decide)

end Ldgr.Format
