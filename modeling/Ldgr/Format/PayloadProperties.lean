import Ldgr.Format.EntryDecode
import Ldgr.Format.ValueProperties

/-! Payloads: what the decoder of each kind reads, field by field. -/

namespace Ldgr.Format

open Ldgr.Base Ldgr.Format.Cbor EntryPayload FaultPayload

attribute [local simp] Form.bind Form.guard Form.pure encodedAs

/-! ## Lengths -/

@[grind! .] theorem length_unsigned_pos (value : UInt64) : 0 < (unsigned value).length :=
  length_major_pos 0 value

@[grind! .] theorem length_array_pos (count : Nat) : 0 < (array count).length :=
  length_major_pos 4 _

@[grind! .] theorem length_bytes_pos (content : Bytes) : 0 < (bytes content).length := by
  have header := length_major_pos 2 (UInt64.ofNat content.length)
  rw [bytes, List.length_append]
  omega

@[grind! .] theorem length_boolean_pos (value : Bool) : 0 < (boolean value).length := by
  cases value <;> decide

/-! ## Fields -/

theorem readU32_reads (message : String) :
    ItemReads 1 (readU32 message) (encodedAs fun value => unsigned value.toUInt64) := by
  refine (readUnsigned_reads.bind fun value => .require (.pure value.toUInt32)).congr ?_
  intro value front
  simp only [Form.bind, Form.guard, Form.pure, encodedAs]
  constructor
  · intro formed
    obtain ⟨wide, _, _, rfl, rfl, small, rfl, rfl⟩ := formed
    rw [List.append_nil]
    congr 1
    exact UInt64.toNat.inj (by simpa using (Nat.mod_eq_of_lt small).symm)
  · intro formed
    subst formed
    exact ⟨_, _, _, (List.append_nil _).symm, rfl, value.toNat_lt, by simp, rfl⟩

theorem readFixedBytes_reads (length : Nat) (message : String) :
    ItemReads 1 (readFixedBytes length message) (encodedAs fun value => bytes value.1) := by
  have fixed (raw : Bytes) : ItemReads 0 (if fits : raw.length = length then pure ⟨raw, fits⟩
        else Reader.fail (.malformedManifest message) : ItemReader (FixedBytes length))
      (fun value front => value.1 = raw ∧ front = []) := by
    split
    · refine (Reads.pure _).congr fun value front => ?_
      rw [Form.pure, Subtype.ext_iff]
    · rename_i differs
      refine Reads.fail.congr fun value front => ⟨False.elim, fun formed => differs ?_⟩
      rw [← formed.1, value.2]
  refine (readBytes_reads.bind fixed).congr ?_
  intro value front
  simp only [Form.bind, encodedAs]
  constructor
  · intro formed
    obtain ⟨_, _, _, rfl, rfl, rfl, rfl⟩ := formed
    rw [List.append_nil]
  · intro formed
    subst formed
    exact ⟨_, _, _, (List.append_nil _).symm, rfl, rfl, rfl⟩

theorem decodeActor_reads : ItemReads 1 decodeActor (encodedAs encodeActor) := by
  refine ((readU32_reads _).bind fun id => .pure ({ id } : ActorId)).congr ?_
  intro actor front
  obtain ⟨id⟩ := actor
  simp [encodeActor]

theorem decodeMessageId_reads : ItemReads 1 decodeMessageId (encodedAs encodeMessageId) := by
  refine (fields_reads (decodeActor_reads.bind fun sender => readUnsigned_reads.bind fun sequence =>
    .pure (MessageId.mk sender sequence)) (by decide)).congr ?_
  intro messageId front
  obtain ⟨sender, sequence⟩ := messageId
  simp [encodeMessageId]

theorem decodeStream_reads :
    ItemReads 1 decodeStream (encodedAs fun stream => unsigned stream.id.toUInt64) := by
  refine ((readU32_reads _).bind fun id => .pure ({ id } : StreamId)).congr ?_
  intro stream front
  obtain ⟨id⟩ := stream
  simp

theorem fromFramedBytes_eq_ok {raw : Bytes} {hash : EntryHash} :
    EntryHash.fromFramedBytes raw = .ok hash ↔ raw = hash.toFramedBytes := by
  unfold EntryHash.fromFramedBytes EntryHash.toFramedBytes
  constructor
  · intro result
    split at result
    · split_ifs at result with length codes
      cases result
      rw [codes.1, codes.2]
    · cases result
  · intro formed
    subst formed
    simp [hash.digest.2]

theorem decodeHash_reads : ItemReads 1 decodeHash (encodedAs encodeHash) := by
  refine (readBytes_reads.bind fun raw => .ofExcept (EntryHash.fromFramedBytes raw)).congr ?_
  intro hash front
  simp [encodeHash, fromFramedBytes_eq_ok]

theorem decodeBytes16_reads : ItemReads 1 decodeBytes16 (encodedAs fun value => bytes value.1) :=
  readFixedBytes_reads 16 _

/-- What the decoder asks of a path: it canonicalizes, to itself or not, and is not too long. -/
structure PathRef.Decodable (pathRef : PathRef) : Prop where
  canonicalizes : ∃ canonical, Path.canonicalize pathRef.canonicalPath = .ok canonical
  short : pathRef.canonicalPath.length ≤ maxCanonicalPathBytes

/-- The written forms of the valid values. -/
def encodedWhen {α : Type} (encode : α → Bytes) (valid : α → Prop) : Form UInt8 α :=
  fun value front => front = encode value ∧ valid value

theorem decodePathRef_reads : ItemReads 1 decodePathRef (encodedWhen encodePathRef PathRef.Decodable) := by
  refine (fields_reads ((readFixedBytes_reads 32 _).bind fun pathHash =>
    readBytes_reads.bind fun path => (Reads.ofExcept _).bind fun _ =>
      .require (.pure (PathRef.mk pathHash path))) (by decide)).congr ?_
  intro pathRef front
  obtain ⟨pathHash, path⟩ := pathRef
  have canonicalizes : (∃ canonical, (Path.canonicalize path).mapError
      (fun _ => CborError.malformedManifest "path ref is not canonical") = .ok canonical) ↔
      ∃ canonical, Path.canonicalize path = .ok canonical :=
    exists_congr fun _ => except_mapError_eq_ok
  simp only [Form.bind, Form.guard, Form.pure, encodedAs, encodedWhen, encodePathRef]
  constructor
  · intro formed
    obtain ⟨_, rfl, _, _, _, rfl, rfl, _, _, _, rfl, rfl, _, _, _, rfl, ⟨ok, rfl⟩, short, made, rfl⟩ :=
      formed
    cases made
    exact ⟨by simp, canonicalizes.mp ⟨_, ok⟩, short⟩
  · intro formed
    obtain ⟨rfl, decodable⟩ := formed
    obtain ⟨canonical, ok⟩ := canonicalizes.mpr decodable.canonicalizes
    exact ⟨_, List.append_assoc _ _ _, _, _, _, rfl, rfl, _, _, _, (List.append_nil _).symm, rfl,
      canonical, [], [], rfl, ⟨ok, rfl⟩, decodable.short, rfl, rfl⟩

theorem decodeValue_reads (message : String) : ItemReads 1 (decodeValue message)
    (encodedWhen CanonicalValue.encoding CanonicalValue.Encodable) :=
  readCanonicalValue_reads.mapError

theorem decodeXorBytes_reads :
    ItemReads 1 decodeXorBytes (encodedWhen bytes fun xorBytes => xorBytes ≠ []) := by
  refine (readBytes_reads.bind fun xorBytes => .require (.pure xorBytes)).congr ?_
  intro xorBytes front
  simp [encodedWhen, and_comm]

theorem decodeBit_reads : ItemReads 1 decodeBit
    (encodedWhen (fun bit => unsigned bit.toUInt64) fun bit => bit ≤ 7) := by
  refine (readUnsigned_reads.bind fun bit => .require (.require (.pure bit.toUInt8))).congr ?_
  intro bit front
  simp only [Form.bind, Form.guard, Form.pure, encodedAs, encodedWhen]
  constructor
  · intro formed
    obtain ⟨wide, _, _, rfl, rfl, small, bounded, rfl, rfl⟩ := formed
    rw [List.append_nil]
    refine ⟨congrArg unsigned (UInt64.toNat.inj ?_), bounded⟩
    simpa using (Nat.mod_eq_of_lt small).symm
  · intro formed
    obtain ⟨rfl, bounded⟩ := formed
    exact ⟨_, _, _, (List.append_nil _).symm, rfl, by simpa using bit.toNat_lt, by simpa using bounded,
      by simp, rfl⟩

/-! ## Alternatives -/

section Alternatives

variable {β : Type} {atLeast : Nat} {found : UInt64} (discriminant : β → UInt64)

theorem discriminated_reads {next : UInt64 → ItemReader β} (lower upper : Form UInt8 β)
    (inner : ∀ found, Reads Wire (2 ^ 64) atLeast (next found)
      (fun value front => discriminant value = found ∧ lower value front)
      (fun value front => discriminant value = found ∧ upper value front)) :
    Reads Wire (2 ^ 64) (atLeast + 1) (readUnsigned >>= next)
      (fun value front => ∃ tail, front = unsigned (discriminant value) ++ tail ∧ lower value tail)
      (fun value front => ∃ tail, front = unsigned (discriminant value) ++ tail ∧ upper value tail) := by
  rw [Nat.add_comm]
  refine (readUnsigned_reads.bind inner).mono ?_ ?_
  · intro value front formed
    obtain ⟨tail, rfl, formed⟩ := formed
    exact ⟨_, _, tail, rfl, rfl, rfl, formed⟩
  · intro value front formed
    obtain ⟨_, _, tail, rfl, rfl, rfl, formed⟩ := formed
    exact ⟨tail, rfl, formed⟩

variable {discriminant} {needed label : Nat} {read : ItemReader β}

theorem alternative_brackets {ownLower ownUpper lower upper : Form UInt8 β}
    (selected : found.toNat = label) (inner : Reads Wire (2 ^ 64) needed read ownLower ownUpper)
    (enough : atLeast ≤ needed)
    (fewer : ∀ value front, (discriminant value).toNat = label → lower value front → ownLower value front)
    (further : ∀ value front, ownUpper value front → (discriminant value).toNat = label ∧ upper value front) :
    Reads Wire (2 ^ 64) atLeast read (fun value front => discriminant value = found ∧ lower value front)
      (fun value front => discriminant value = found ∧ upper value front) := by
  refine (inner.weaken enough).mono ?_ ?_
  · intro value front formed
    exact fewer value front (formed.1 ▸ selected) formed.2
  · intro value front formed
    obtain ⟨same, formed⟩ := further value front formed
    exact ⟨UInt64.toNat.inj (same.trans selected.symm), formed⟩

theorem alternative_reads {own form : Form UInt8 β} (selected : found.toNat = label)
    (inner : ItemReads needed read own) (enough : atLeast ≤ needed)
    (same : ∀ value front, own value front ↔ (discriminant value).toNat = label ∧ form value front) :
    ItemReads atLeast read (fun value front => discriminant value = found ∧ form value front) :=
  alternative_brackets selected inner enough
    (fun _ _ carried formed => (same _ _).mpr ⟨carried, formed⟩) fun _ _ => (same _ _).mp

theorem no_alternative_reads {fault : CborError} {lower upper : Form UInt8 β}
    (other : ∀ value, found.toNat ≠ (discriminant value).toNat) :
    Reads Wire (2 ^ 64) atLeast (Reader.fail fault : ItemReader β)
      (fun value front => discriminant value = found ∧ lower value front)
      (fun value front => discriminant value = found ∧ upper value front) :=
  Reads.fail.mono (fun value _ formed => other value (congrArg UInt64.toNat formed.1.symm))
    fun _ _ => False.elim

end Alternatives

/-! ## What payloads carry -/

namespace EntryPayload

/-- The bytes of a payload whose value is listed in canonical order. -/
def encoding (payload : EntryPayload) : Bytes :=
  payload.fields ++ payload.value?.elim [] fun value => value.1.encoding

def paths : EntryPayload → List PathRef
  | .fsWrite (.write pathRef _ _) => [pathRef]
  | .fsWrite (.allocate pathRef) => [pathRef]
  | .fsWrite (.rename fromPathRef toPathRef) => [fromPathRef, toPathRef]
  | .fsFsync pathRef => [pathRef]
  | .fsRead read => [read.pathRef]
  | .fault (.crashActor _ (.dropPaths paths)) => paths
  | _ => []

def xorBytes : EntryPayload → Option Bytes
  | .fault (.corruptMessage _ _ xorBytes) => some xorBytes
  | .fault (.crashActor _ (.corruptRange _ _ xorBytes)) => some xorBytes
  | _ => none

def bit : EntryPayload → Option UInt8
  | .fault (.crashActor _ (.bitFlip _ _ bit)) => some bit
  | _ => none

/-- The decoder's checks on what a payload carries. -/
structure Valid (payload : EntryPayload) : Prop where
  paths : ∀ pathRef ∈ payload.paths, pathRef.Decodable
  value : ∀ value ∈ payload.value?, value.1.Encodable
  xorBytes : ∀ content ∈ payload.xorBytes, content ≠ []
  bit : ∀ bit ∈ payload.bit, bit ≤ 7

end EntryPayload

/-! ## Payloads -/

def BlockPayload.discriminant : BlockPayload → UInt64
  | .yield => 0
  | .waitMessage => 1

theorem decodeBlock_reads : ItemReads 1 decodeBlock (encodedAs fun reason => (block reason).fields) := by
  refine (fields_reads (discriminated_reads BlockPayload.discriminant (fun _ tail => tail = []) _
    fun found => ?_) (Nat.le_refl 1)).congr ?_
  · split
    · refine alternative_reads ‹_› (.pure _) (by decide) fun reason front => ?_
      cases reason <;> simp [BlockPayload.discriminant]
    · refine alternative_reads ‹_› (.pure _) (by decide) fun reason front => ?_
      cases reason <;> simp [BlockPayload.discriminant]
    · refine no_alternative_reads fun reason => ?_
      cases reason <;> assumption
  · intro reason front
    cases reason <;> simp [fields, BlockPayload.discriminant]

def WakePayload.discriminant : WakePayload → UInt64
  | .timerReady _ => 0
  | .messageReady _ => 1

def WakePayload.tail : WakePayload → Bytes
  | .timerReady timerId => unsigned timerId
  | .messageReady messageId => encodeMessageId messageId

theorem decodeWake_reads : ItemReads 1 decodeWake (encodedAs fun reason => (wake reason).fields) := by
  refine (fields_reads (discriminated_reads WakePayload.discriminant (encodedAs WakePayload.tail) _
    fun found => ?_) (Nat.le_refl 2)).congr ?_
  · split
    · refine alternative_reads ‹_› (readUnsigned_reads.bind fun timerId =>
        .pure (WakePayload.timerReady timerId)) (by decide) fun reason front => ?_
      cases reason <;>
        simp [WakePayload.discriminant, WakePayload.tail]
    · refine alternative_reads ‹_› (decodeMessageId_reads.bind fun messageId =>
        .pure (WakePayload.messageReady messageId)) (by decide) fun reason front => ?_
      cases reason <;>
        simp [WakePayload.discriminant, WakePayload.tail]
    · refine no_alternative_reads fun reason => ?_
      cases reason <;> assumption
  · intro reason front
    cases reason <;>
      simp [fields, WakePayload.discriminant, WakePayload.tail]

theorem decodeRngDraw_reads : ItemReads 1 decodeRngDraw (encodedAs fun draw => (rngDraw draw).fields) := by
  refine (fields_reads (decodeStream_reads.bind fun stream => readUnsigned_reads.bind fun index =>
    readBytes_reads.bind fun content => .pure (RngDrawPayload.mk stream index content))
    (by decide)).congr ?_
  intro draw front
  obtain ⟨stream, index, content⟩ := draw
  simp [fields]

theorem decodeCapRequest_reads : ItemReads 1 decodeCapRequest
    (encodedAs fun request => (capRequest request).fields) := by
  refine (fields_reads (decodeBytes16_reads.bind fun request => decodeHash_reads.bind fun subject =>
    decodeHash_reads.bind fun capability => .pure (CapRequestPayload.mk request subject capability))
    (by decide)).congr ?_
  intro payload front
  obtain ⟨request, subject, capability⟩ := payload
  simp [fields]

theorem decodeCapGrant_reads : ItemReads 1 decodeCapGrant (encodedAs fun grant => (capGrant grant).fields) := by
  refine (fields_reads (decodeBytes16_reads.bind fun request => decodeBytes16_reads.bind fun grant =>
    readUnsigned_reads.bind fun epoch => .pure (CapGrantPayload.mk request grant epoch))
    (by decide)).congr ?_
  intro payload front
  obtain ⟨request, grant, epoch⟩ := payload
  simp [fields]

theorem decodeCapInvoke_reads : ItemReads 1 decodeCapInvoke
    (encodedAs fun invoke => (capInvoke invoke).fields) := by
  refine (fields_reads (decodeBytes16_reads.bind fun grant => decodeHash_reads.bind fun operation =>
    .pure (CapInvokePayload.mk grant operation)) (by decide)).congr ?_
  intro payload front
  obtain ⟨grant, operation⟩ := payload
  simp [fields]

theorem decodeCapRevoke_reads : ItemReads 1 decodeCapRevoke
    (encodedAs fun revoke => (capRevoke revoke).fields) := by
  refine (fields_reads (decodeBytes16_reads.bind fun grant => readUnsigned_reads.bind fun epoch =>
    .pure (CapRevokePayload.mk grant epoch)) (by decide)).congr ?_
  intro payload front
  obtain ⟨grant, epoch⟩ := payload
  simp [fields]

theorem decodeIdempotencyKey_reads : ItemReads 1 decodeIdempotencyKey (encodedAs encodeIdempotencyKey) := by
  refine (readKind_reads (fun key => key.elim .null .bytes) ?_ ?_ ?_).congr ?_
  · intro found key
    cases found <;> cases key <;> simp
  · intro key
    cases key <;> rfl
  · intro key
    cases key <;> trivial
  · intro key front
    cases key <;> rfl

theorem decodeStepBegin_reads : ItemReads 1 decodeStepBegin
    (encodedAs fun begun => (stepBegin begun).fields) := by
  refine (fields_reads (readUnsigned_reads.bind fun stepId => readBytes_reads.bind fun name =>
    decodeIdempotencyKey_reads.bind fun key => .pure (StepBeginPayload.mk stepId name key))
    (by decide)).congr ?_
  intro payload front
  obtain ⟨stepId, name, key⟩ := payload
  simp [fields]

theorem decodeOutcome_reads : ItemReads 1 decodeOutcome
    (encodedWhen (fun reported => (outcome reported).encoding) fun reported => reported.value.Encodable) := by
  refine (fields_reads (decodeHash_reads.bind fun schema => (decodeValue_reads _).bind fun value =>
    .pure (OutcomePayload.mk schema value)) (by decide)).congr ?_
  intro reported front
  obtain ⟨schema, value⟩ := reported
  simp [encodedWhen, encoding, fields, value?, and_comm]

theorem decodeAssert_reads : ItemReads 1 decodeAssert (encodedWhen (fun checked => (assert checked).encoding)
      fun checked => checked.detail.Encodable) := by
  refine (fields_reads (decodeHash_reads.bind fun predicate => readBool_reads.bind fun passed =>
    (decodeValue_reads _).bind fun detail => .pure (AssertPayload.mk predicate passed detail))
    (by decide)).congr ?_
  intro checked front
  obtain ⟨predicate, passed, detail⟩ := checked
  simp [-Bool.exists_bool, encodedWhen, encoding, fields, value?, and_comm]

theorem decodeInputStep_reads : ItemReads 1 decodeInputStep (encodedWhen (fun step => (inputStep step).encoding)
      fun step => step.value.Encodable) := by
  refine (fields_reads (readUnsigned_reads.bind fun generator => readUnsigned_reads.bind fun replay =>
    (decodeValue_reads _).bind fun value => .pure (InputStepPayload.mk generator replay value))
    (by decide)).congr ?_
  intro step front
  obtain ⟨generator, replay, value⟩ := step
  simp [encodedWhen, encoding, fields, value?, and_comm]

theorem decodeStepEnd_reads : ItemReads 1 decodeStepEnd (encodedWhen (fun ended => (stepEnd ended).encoding)
      fun ended => ended.parts.2.2.Encodable) := by
  refine (fields_reads (readUnsigned_reads.bind fun discriminant => readUnsigned_reads.bind fun stepId =>
    (decodeValue_reads _).bind fun value => show ItemReads 0 _ (fun (ended : StepEndPayload) front =>
      ended.parts.1 = discriminant ∧ ended.parts.2 = (stepId, value) ∧ front = []) from ?_)
    (by decide)).congr ?_
  · split
    · refine alternative_reads ‹_› (.pure _) (by decide) fun ended front => ?_
      cases ended <;> simp [StepEndPayload.parts]
    · refine alternative_reads ‹_› (.pure _) (by decide) fun ended front => ?_
      cases ended <;> simp [StepEndPayload.parts]
    · refine alternative_reads ‹_› (.pure _) (by decide) fun ended front => ?_
      cases ended <;> simp [StepEndPayload.parts]
    · refine no_alternative_reads fun ended => ?_
      cases ended <;> assumption
  · intro ended front
    cases ended <;> simp [encodedWhen, encoding, fields, value?, StepEndPayload.parts, and_comm]

/-! ## Filesystem payloads -/

namespace FsWritePayload

def discriminant : FsWritePayload → UInt64
  | .write _ _ _ => 0
  | .allocate _ => 1
  | .rename _ _ => 2

def arity : FsWritePayload → Nat
  | .write _ _ _ => 4
  | .allocate _ => 2
  | .rename _ _ => 3

def tail : FsWritePayload → Bytes
  | .write pathRef offset content => encodePathRef pathRef ++ unsigned offset ++ bytes content
  | .allocate pathRef => encodePathRef pathRef
  | .rename fromPathRef toPathRef => encodePathRef fromPathRef ++ encodePathRef toPathRef

theorem encode_eq (write : FsWritePayload) :
    encodeFsWrite write = array write.arity ++ (unsigned write.discriminant ++ write.tail) := by
  cases write <;> simp [encodeFsWrite, arity, discriminant, tail]

theorem arity_le (write : FsWritePayload) :
    write.arity ≤ (unsigned write.discriminant ++ write.tail).length := by
  cases write <;> grind [arity, tail, encodePathRef]

end FsWritePayload

theorem decodeFsWriteBody_reads (count : Nat) : ItemReads 2 (decodeFsWriteBody count)
    (fun write front => ∃ tail, front = unsigned write.discriminant ++ tail ∧
      count = write.arity ∧ tail = write.tail ∧ ∀ pathRef ∈ (fsWrite write).paths, pathRef.Decodable) := by
  refine discriminated_reads FsWritePayload.discriminant (fun write tail => count = write.arity ∧
    tail = write.tail ∧ ∀ pathRef ∈ (fsWrite write).paths, pathRef.Decodable) _
    fun found => ?_
  split
  case h_4 =>
    refine no_alternative_reads fun write => ?_
    cases write <;> assumption
  case' h_1 =>
    refine alternative_reads ‹_› (.require (decodePathRef_reads.bind fun pathRef =>
      readUnsigned_reads.bind fun offset => readBytes_reads.bind fun content =>
        .pure (FsWritePayload.write pathRef offset content))) (by decide) fun write front => ?_
  case' h_2 =>
    refine alternative_reads ‹_› (.require (decodePathRef_reads.bind fun pathRef =>
      .pure (FsWritePayload.allocate pathRef))) (by decide) fun write front => ?_
  case' h_3 =>
    refine alternative_reads ‹_› (.require (decodePathRef_reads.bind fun fromPathRef =>
      decodePathRef_reads.bind fun toPathRef =>
        .pure (FsWritePayload.rename fromPathRef toPathRef))) (by decide) fun write front => ?_
  all_goals cases write <;> simp [encodedWhen, FsWritePayload.discriminant, FsWritePayload.arity, FsWritePayload.tail, paths, and_comm]

theorem decodeFsWrite_reads : ItemReads 1 decodeFsWrite (encodedWhen encodeFsWrite fun write =>
      ∀ pathRef ∈ (fsWrite write).paths, pathRef.Decodable) := by
  refine (counted_reads decodeFsWriteBody_reads ?_).congr ?_
  · intro count write body _ formed
    obtain ⟨_, rfl, rfl, rfl, _⟩ := formed
    exact write.arity_le
  · intro write front
    rw [encodedWhen, write.encode_eq]
    constructor
    · intro formed
      obtain ⟨_, _, rfl, _, _, rfl, rfl, rfl, decodable⟩ := formed
      exact ⟨rfl, decodable⟩
    · intro formed
      obtain ⟨rfl, decodable⟩ := formed
      refine ⟨_, _, rfl, ?_, _, rfl, rfl, rfl, decodable⟩
      cases write <;> simp [FsWritePayload.arity]

namespace ObservedRead

def discriminant : ObservedRead → UInt64
  | .missing => 0
  | .present _ => 1

/-- The number of items the encoder declares after `discriminant`. -/
def arity (discriminant : UInt64) : Nat :=
  if discriminant = 0 then 1 else 2

def tail : ObservedRead → Bytes
  | .missing => []
  | .present content => bytes content

def body (observed : ObservedRead) : Bytes :=
  unsigned observed.discriminant ++ observed.tail

theorem encode_eq (observed : ObservedRead) :
    encodeObserved observed = array (arity observed.discriminant) ++ observed.body := by
  cases observed <;> simp [encodeObserved, arity, discriminant, tail, body]

theorem arity_le (observed : ObservedRead) : arity observed.discriminant ≤ observed.body.length := by
  cases observed <;> grind [arity, discriminant, tail, body]

end ObservedRead

theorem decodeObservedBody_reads : ItemReads 1 decodeObservedBody (encodedAs ObservedRead.body) := by
  refine (discriminated_reads ObservedRead.discriminant (encodedAs ObservedRead.tail) _
    fun found => ?_).congr ?_
  · split
    · refine alternative_reads ‹_› (.pure _) (by decide) fun observed front => ?_
      cases observed <;>
        simp [ObservedRead.discriminant, ObservedRead.tail]
    · refine alternative_reads ‹_› (readBytes_reads.bind fun content =>
        .pure (ObservedRead.present content)) (by decide) fun observed front => ?_
      cases observed <;>
        simp [ObservedRead.discriminant, ObservedRead.tail]
    · refine no_alternative_reads fun observed => ?_
      cases observed <;> assumption
  · intro observed front
    simp [ObservedRead.body]

theorem decodeObserved_reads : Reads Wire (2 ^ 64) 1 decodeObserved (encodedAs encodeObserved)
    (fun observed front => ∃ count, (count = 1 ∨ count = 2) ∧ front = array count ++ observed.body) := by
  have inner (count : Nat) : Reads Wire (2 ^ 64) 1 decodeObservedBody
      (fun observed body => count = ObservedRead.arity observed.discriminant ∧ body = observed.body)
      (encodedAs ObservedRead.body) :=
    decodeObservedBody_reads.mono (fun _ _ => And.right) fun _ _ => id
  refine (counted_reads inner ?_).mono ?_ ?_
  · intro count observed body _ formed
    obtain ⟨rfl, rfl⟩ := formed
    exact observed.arity_le
  · intro observed front formed
    refine ⟨_, _, formed.trans observed.encode_eq, ?_, rfl, rfl⟩
    cases observed <;> simp [ObservedRead.arity, ObservedRead.discriminant]
  · intro observed front formed
    obtain ⟨count, _, rfl, allowed, rfl⟩ := formed
    exact ⟨count, allowed, rfl⟩

/-- A read observation whose result declares `count` items. -/
def FsReadPayload.declaring (read : FsReadPayload) (count : Nat) : Bytes :=
  array 4 ++ encodePathRef read.pathRef ++ unsigned read.offset ++ unsigned read.requestedLen ++
    (array count ++ read.observed.body)

theorem FsReadPayload.declaring_arity (read : FsReadPayload) :
    read.declaring (ObservedRead.arity read.observed.discriminant) = (fsRead read).fields := by
  rw [declaring, ← ObservedRead.encode_eq]
  rfl

theorem decodeFsRead_reads : Reads Wire (2 ^ 64) 1 decodeFsRead
    (encodedWhen (fun read => (fsRead read).fields) fun read => read.pathRef.Decodable)
    (fun read front => read.pathRef.Decodable ∧ ∃ count, (count = 1 ∨ count = 2) ∧
      front = read.declaring count) := by
  refine (fields_reads (decodePathRef_reads.bind fun pathRef => readUnsigned_reads.bind fun offset =>
    readUnsigned_reads.bind fun requestedLen => decodeObserved_reads.bind fun observed =>
      .pure (FsReadPayload.mk pathRef offset requestedLen observed)) (by decide)).mono ?_ ?_
  · intro read front formed
    obtain ⟨pathRef, offset, requestedLen, observed⟩ := read
    obtain ⟨rfl, decodable⟩ := formed
    simpa [Form.bind, Form.pure, encodedAs, encodedWhen, fields] using decodable
  · intro read front formed
    obtain ⟨_, rfl, _, _, _, rfl, ⟨rfl, decodable⟩, _, _, _, rfl, rfl, _, _, _, rfl, rfl, _, _, _, rfl,
      ⟨count, allowed, rfl⟩, rfl, rfl⟩ := formed
    exact ⟨decodable, count, allowed, by simp [FsReadPayload.declaring]⟩

/-! ## Faults -/

namespace CrashOperation

def discriminant : CrashOperation → UInt64
  | .dropAllUnsynced => 0
  | .dropPaths _ => 1
  | .tornWrite _ _ => 2
  | .corruptRange _ _ _ => 3
  | .bitFlip _ _ _ => 4

def arity (discriminant : UInt64) : Nat :=
  match discriminant.toNat with
  | 0 => 1
  | 1 => 2
  | 2 => 3
  | _ => 4

def tail : CrashOperation → Bytes
  | .dropAllUnsynced => []
  | .dropPaths paths => array paths.length ++ paths.flatMap encodePathRef
  | .tornWrite writeEntry persistedPrefix => encodeHash writeEntry ++ unsigned persistedPrefix
  | .corruptRange writeEntry offset xorBytes =>
    encodeHash writeEntry ++ unsigned offset ++ bytes xorBytes
  | .bitFlip writeEntry offset bit =>
    encodeHash writeEntry ++ unsigned offset ++ unsigned bit.toUInt64

def body (operation : CrashOperation) : Bytes :=
  unsigned operation.discriminant ++ operation.tail

def Valid : CrashOperation → Prop
  | .dropPaths paths => ∀ pathRef ∈ paths, pathRef.Decodable
  | .corruptRange _ _ xorBytes => xorBytes ≠ []
  | .bitFlip _ _ bit => bit ≤ 7
  | _ => True

theorem encode_eq (operation : CrashOperation) :
    encodeCrashOperation operation = array (arity operation.discriminant) ++ operation.body := by
  cases operation <;> simp [encodeCrashOperation, arity, discriminant, tail, body]

theorem arity_le (operation : CrashOperation) : arity operation.discriminant ≤ operation.body.length := by
  cases operation <;> simp [arity, discriminant, body, tail] <;> grind [encodeHash]

end CrashOperation

theorem run_encodedWhen {α : Type} {encode : α → Bytes} {valid : α → Prop} {values : List α}
    {front : Bytes} :
    Form.Run (encodedWhen encode valid) values front ↔
      front = values.flatMap encode ∧ ∀ value ∈ values, valid value :=
  Form.run_eq_flatMap

theorem decodeCrashBody_reads :
    ItemReads 1 decodeCrashBody (encodedWhen CrashOperation.body CrashOperation.Valid) := by
  refine (discriminated_reads CrashOperation.discriminant
    (encodedWhen CrashOperation.tail CrashOperation.Valid) _ fun found => ?_).congr ?_
  · split
    case h_6 =>
      refine no_alternative_reads fun operation => ?_
      cases operation <;> assumption
    case' h_1 => refine alternative_reads ‹_› (.pure _) (by decide) fun operation front => ?_
    case' h_2 =>
      refine alternative_reads ‹_› ((elements_reads decodePathRef_reads).bind fun paths =>
        .pure (CrashOperation.dropPaths paths)) (by decide) fun operation front => ?_
    case' h_3 =>
      refine alternative_reads ‹_› (decodeHash_reads.bind fun writeEntry =>
        readUnsigned_reads.bind fun persisted =>
          .pure (CrashOperation.tornWrite writeEntry persisted)) (by decide) fun operation front => ?_
    case' h_4 =>
      refine alternative_reads ‹_› (decodeHash_reads.bind fun writeEntry =>
        readUnsigned_reads.bind fun offset => decodeXorBytes_reads.bind fun xorBytes =>
          .pure (CrashOperation.corruptRange writeEntry offset xorBytes)) (by decide) fun operation front => ?_
    case' h_5 =>
      refine alternative_reads ‹_› (decodeHash_reads.bind fun writeEntry =>
        readUnsigned_reads.bind fun offset => decodeBit_reads.bind fun bit =>
          .pure (CrashOperation.bitFlip writeEntry offset bit)) (by decide) fun operation front => ?_
    all_goals cases operation <;> simp [run_encodedWhen, encodedWhen, CrashOperation.discriminant, CrashOperation.tail, CrashOperation.Valid, and_comm]
  · intro operation front
    simp [encodedWhen, CrashOperation.body, and_comm]

theorem decodeCrashOperation_reads : Reads Wire (2 ^ 64) 1 decodeCrashOperation
    (encodedWhen encodeCrashOperation CrashOperation.Valid)
    (fun operation front => operation.Valid ∧ ∃ count, (1 ≤ count ∧ count ≤ 4) ∧
      front = array count ++ operation.body) := by
  have inner (count : Nat) : Reads Wire (2 ^ 64) 1 decodeCrashBody
      (fun operation body => count = CrashOperation.arity operation.discriminant ∧
        encodedWhen CrashOperation.body CrashOperation.Valid operation body)
      (encodedWhen CrashOperation.body CrashOperation.Valid) :=
    decodeCrashBody_reads.mono (fun _ _ => And.right) fun _ _ => id
  refine (counted_reads inner ?_).mono ?_ ?_
  · intro count operation body _ formed
    obtain ⟨rfl, rfl, _⟩ := formed
    exact operation.arity_le
  · intro operation front formed
    refine ⟨_, _, formed.1.trans operation.encode_eq, ?_, rfl, rfl, formed.2⟩
    cases operation <;> simp [CrashOperation.arity, CrashOperation.discriminant]
  · intro operation front formed
    obtain ⟨count, _, rfl, allowed, rfl, valid⟩ := formed
    exact ⟨valid, count, allowed, rfl⟩

namespace FaultPayload

def discriminant : FaultPayload → UInt64
  | .dropMessage _ => 0
  | .delayMessage _ _ => 1
  | .duplicateMessage _ _ => 2
  | .corruptMessage _ _ _ => 3
  | .partition _ _ _ => 4
  | .crashActor _ _ => 5

def arity (discriminant : UInt64) : Nat :=
  match discriminant.toNat with
  | 0 => 2
  | 3 => 4
  | 4 => 4
  | _ => 3

/-- What follows the discriminant, a crash operation declaring `count` items. -/
def tail (count : Nat) : FaultPayload → Bytes
  | .dropMessage messageId => encodeMessageId messageId
  | .delayMessage messageId ticks => encodeMessageId messageId ++ unsigned ticks
  | .duplicateMessage messageId copyOrdinal =>
    encodeMessageId messageId ++ unsigned copyOrdinal.toUInt64
  | .corruptMessage messageId offset xorBytes =>
    encodeMessageId messageId ++ unsigned offset ++ bytes xorBytes
  | .partition source target enabled => encodeActor source ++ encodeActor target ++ boolean enabled
  | .crashActor actor operation => encodeActor actor ++ (array count ++ operation.body)

/-- The declared length of a crash operation in the encoder's form. -/
def crashArity : FaultPayload → Nat
  | .crashActor _ operation => CrashOperation.arity operation.discriminant
  | _ => 1

def crashAgrees (count : Nat) : FaultPayload → Bool
  | .crashActor _ operation => count = CrashOperation.arity operation.discriminant
  | _ => true

def body (fault : FaultPayload) (count : Nat) : Bytes :=
  unsigned fault.discriminant ++ fault.tail count

def Valid : FaultPayload → Prop
  | .corruptMessage _ _ xorBytes => xorBytes ≠ []
  | .crashActor _ operation => operation.Valid
  | _ => True

theorem encode_eq (fault : FaultPayload) :
    encodeFaultPayload fault = array (arity fault.discriminant) ++ fault.body fault.crashArity := by
  cases fault with
  | crashActor actor operation =>
    simp [encodeFaultPayload, arity, discriminant, tail, body, crashArity, CrashOperation.encode_eq]
  | _ => simp [encodeFaultPayload, arity, discriminant, tail, body]

theorem arity_le (fault : FaultPayload) : arity fault.discriminant ≤ (fault.body fault.crashArity).length := by
  cases fault <;> simp [arity, discriminant, body, tail] <;> grind [encodeMessageId, encodeActor]

end FaultPayload

private theorem decodeFaultBody_reads : Reads Wire (2 ^ 64) 1 decodeFaultBody
    (fun fault front => front = fault.body fault.crashArity ∧ fault.Valid)
    (fun fault front => fault.Valid ∧ ∃ count, (1 ≤ count ∧ count ≤ 4) ∧ front = fault.body count) := by
  have within : ∃ count, 1 ≤ count ∧ count ≤ 4 := ⟨1, by decide⟩
  refine (discriminated_reads discriminant
    (fun fault front => front = fault.tail fault.crashArity ∧ fault.Valid)
    (fun fault front => fault.Valid ∧ ∃ count, (1 ≤ count ∧ count ≤ 4) ∧ front = fault.tail count)
    fun found => ?_).mono ?_ ?_
  · split
    case h_7 =>
      refine no_alternative_reads fun fault => ?_
      cases fault <;> assumption
    case h_6 =>
      refine alternative_brackets ‹_› (decodeActor_reads.bind fun actor =>
        decodeCrashOperation_reads.bind fun operation => .pure (crashActor actor operation))
        (by decide) ?_ ?_
      · intro fault front carried formed
        cases fault with
        | crashActor actor operation =>
          obtain ⟨rfl, valid⟩ := formed
          refine ⟨actor, _, _, rfl, rfl, operation, _, [], (List.append_nil _).symm, ?_, rfl, rfl⟩
          exact ⟨operation.encode_eq.symm, valid⟩
        | _ => cases carried
      · intro fault front formed
        obtain ⟨_, _, _, rfl, rfl, _, _, _, rfl, ⟨valid, count, allowed, rfl⟩, rfl, rfl⟩ := formed
        exact ⟨rfl, valid, count, allowed, by simp [tail]⟩
    case' h_1 =>
      refine alternative_brackets ‹_› (decodeMessageId_reads.bind fun messageId =>
        .pure (dropMessage messageId)) (by decide) (fun fault front => ?_) (fun fault front => ?_)
    case' h_2 =>
      refine alternative_brackets ‹_› (decodeMessageId_reads.bind fun messageId =>
        readUnsigned_reads.bind fun ticks => .pure (delayMessage messageId ticks))
        (by decide) (fun fault front => ?_) (fun fault front => ?_)
    case' h_3 =>
      refine alternative_brackets ‹_› (decodeMessageId_reads.bind fun messageId =>
        (readU32_reads _).bind fun ordinal => .pure (duplicateMessage messageId ordinal))
        (by decide) (fun fault front => ?_) (fun fault front => ?_)
    case' h_4 =>
      refine alternative_brackets ‹_› (decodeMessageId_reads.bind fun messageId =>
        readUnsigned_reads.bind fun offset => decodeXorBytes_reads.bind fun xorBytes =>
          .pure (corruptMessage messageId offset xorBytes))
        (by decide) (fun fault front => ?_) (fun fault front => ?_)
    case' h_5 =>
      refine alternative_brackets ‹_› (decodeActor_reads.bind fun source =>
        decodeActor_reads.bind fun target => readBool_reads.bind fun enabled =>
          .pure (partition source target enabled))
        (by decide) (fun fault front => ?_) (fun fault front => ?_)
    all_goals cases fault <;> simp +contextual [-Bool.exists_bool, encodedWhen, discriminant, tail, FaultPayload.Valid, within]
  · intro fault front formed
    obtain ⟨rfl, valid⟩ := formed
    exact ⟨_, rfl, rfl, valid⟩
  · intro fault front formed
    obtain ⟨_, rfl, valid, count, allowed, rfl⟩ := formed
    exact ⟨valid, count, allowed, rfl⟩

theorem decodeFaultPayload_reads : Reads Wire (2 ^ 64) 1 decodeFaultPayload
    (encodedWhen encodeFaultPayload FaultPayload.Valid)
    (fun fault front => fault.Valid ∧ ∃ outer inner, ((2 ≤ outer ∧ outer ≤ 4) ∧
      1 ≤ inner ∧ inner ≤ 4) ∧ front = array outer ++ fault.body inner) := by
  have inner (count : Nat) : Reads Wire (2 ^ 64) 1 decodeFaultBody
      (fun fault body => count = arity fault.discriminant ∧
        body = fault.body fault.crashArity ∧ fault.Valid) _ :=
    decodeFaultBody_reads.mono (fun _ _ => And.right) fun _ _ => id
  refine (counted_reads inner ?_).mono ?_ ?_
  · intro count fault body _ formed
    obtain ⟨rfl, rfl, _⟩ := formed
    exact fault.arity_le
  · intro fault front formed
    refine ⟨_, _, formed.1.trans fault.encode_eq, ?_, rfl, rfl, formed.2⟩
    cases fault <;> simp [arity, discriminant]
  · intro fault front formed
    obtain ⟨outer, _, rfl, allowed, valid, count, within, rfl⟩ := formed
    exact ⟨valid, outer, count, ⟨allowed, within⟩, rfl⟩

/-! ## Every payload -/

theorem decodeChildActor_reads : ItemReads 1 decodeChildActor
    (encodedAs fun childActor => (spawn childActor).fields) := by
  refine (fields_reads ((readU32_reads _).bind fun id => .pure (ActorId.mk id)) (by decide)).congr ?_
  intro actor front
  obtain ⟨id⟩ := actor
  simp [fields, encodeActor]

theorem decodeTimer_reads : ItemReads 1 decodeTimer
    (encodedAs fun timer => (timerSet timer.1 timer.2).fields) := by
  refine (fields_reads (readUnsigned_reads.bind fun timerId => readUnsigned_reads.bind fun ticks =>
    .pure (timerId, ticks)) (by decide)).congr ?_
  intro timer front
  obtain ⟨timerId, ticks⟩ := timer
  simp [fields]

theorem decodeFrame_reads {α : Type} (message : String)
    {make : MessageId → ActorId → ActorId → Bytes → α} {fields : α → Bytes}
    (shape : ∀ frame, ∃ messageId source target content, frame = make messageId source target content)
    (layout : ∀ messageId source target content, fields (make messageId source target content) =
      array 4 ++ encodeMessageId messageId ++ encodeActor source ++ encodeActor target ++ bytes content) :
    ItemReads 1 (decodeFrame message make) (encodedAs fields) := by
  refine (fields_reads (decodeMessageId_reads.bind fun messageId => decodeActor_reads.bind fun source =>
    decodeActor_reads.bind fun target => readBytes_reads.bind fun content =>
      .pure (make messageId source target content)) (by decide)).congr ?_
  intro frame front
  simp only [Form.bind, Form.pure, encodedAs]
  constructor
  · intro formed
    obtain ⟨_, rfl, _, _, _, rfl, rfl, _, _, _, rfl, rfl, _, _, _, rfl, rfl, _, _, _, rfl, rfl, rfl,
      rfl⟩ := formed
    simp [layout]
  · intro formed
    obtain ⟨messageId, source, target, content, rfl⟩ := shape frame
    refine ⟨_, ?_, messageId, _, _, rfl, rfl, source, _, _, rfl, rfl, target, _, _, rfl, rfl,
      content, _, [], rfl, rfl, rfl, rfl⟩
    simp [formed, layout]

theorem readOne_reads {α : Type} (message : String) {read : ItemReader α} {encode : α → Bytes}
    (inner : ItemReads 1 read (encodedAs encode)) :
    ItemReads 1 (readFields 1 message read) (encodedAs fun value => array 1 ++ encode value) := by
  refine (fields_reads inner (by decide)).congr fun value front => ?_
  simp

theorem readOneWhen_reads {α : Type} (message : String) {read : ItemReader α} {encode : α → Bytes}
    {valid : α → Prop} (inner : ItemReads 1 read (encodedWhen encode valid)) :
    ItemReads 1 (readFields 1 message read) (encodedWhen (fun value => array 1 ++ encode value) valid) := by
  refine (fields_reads inner (by decide)).congr fun value front => ?_
  simp [encodedWhen, and_comm]

namespace EntryPayload

/-- The payload with `outer` declared for an observed result or a fault and `inner` for a crash
operation. -/
def declaring (payload : EntryPayload) (outer inner : Nat) : Bytes :=
  match payload with
  | .fsRead read => read.declaring outer
  | .fault injected => array outer ++ injected.body inner
  | payload => payload.encoding

def Agrees (payload : EntryPayload) (outer inner : Nat) : Prop :=
  match payload with
  | .fsRead read => outer = ObservedRead.arity read.observed.discriminant
  | .fault injected =>
    outer = arity injected.discriminant ∧ injected.crashAgrees inner = true
  | _ => True

theorem valid_iff {payload : EntryPayload} : payload.Valid ↔ (∀ pathRef ∈ payload.paths, pathRef.Decodable) ∧
      (∀ value ∈ payload.value?, value.1.Encodable) ∧
      (∀ content ∈ payload.xorBytes, content ≠ []) ∧ ∀ bit ∈ payload.bit, bit ≤ 7 :=
  ⟨fun valid => ⟨valid.paths, valid.value, valid.xorBytes, valid.bit⟩,
    fun valid => ⟨valid.1, valid.2.1, valid.2.2.1, valid.2.2.2⟩⟩

theorem declaring_of_agrees {payload : EntryPayload} {outer inner : Nat}
    (agrees : payload.Agrees outer inner) : payload.declaring outer inner = payload.encoding := by
  cases payload with
  | fsRead read =>
    rw [Agrees] at agrees
    rw [agrees]
    exact read.declaring_arity.trans (List.append_nil _).symm
  | fault injected =>
    have written : (fault injected).encoding =
        array (arity injected.discriminant) ++ injected.body injected.crashArity :=
      (List.append_nil _).trans injected.encode_eq
    obtain ⟨rfl, crash⟩ := agrees
    rw [written]
    cases injected with
    | crashActor actor operation =>
      obtain rfl := of_decide_eq_true crash
      rfl
    | _ => rfl
  | _ => rfl

end EntryPayload

/-- The form of the payloads of one kind, whatever lengths they declare. -/
def declaredForm (kind : EntryKind) : Form UInt8 EntryPayload :=
  fun payload front => payload.kind = kind ∧ payload.Valid ∧
    ∃ outer inner, outer ≤ 4 ∧ inner ≤ 4 ∧ front = payload.declaring outer inner

def encodedForm (kind : EntryKind) : Form UInt8 EntryPayload :=
  fun payload front => payload.kind = kind ∧ payload.Valid ∧ front = payload.encoding

private theorem fault_valid_iff (injected : FaultPayload) : (fault injected).Valid ↔ injected.Valid := by
  rw [valid_iff]
  cases injected with
  | crashActor actor operation =>
    cases operation <;> simp [paths, value?, xorBytes, bit, FaultPayload.Valid, CrashOperation.Valid]
  | _ =>
    simp [paths, value?, xorBytes, bit, FaultPayload.Valid]

section Kinds

variable {α : Type} {kind : EntryKind} {read : ItemReader α} (make : α → EntryPayload)

private theorem kind_brackets {lower upper : Form UInt8 α} (inner : Reads Wire (2 ^ 64) 1 read lower upper)
    (fewer : ∀ value, (make value).Valid → lower value (make value).encoding)
    (further : ∀ value front, upper value front → (make value).Valid ∧
      ∃ outer inner, outer ≤ 4 ∧ inner ≤ 4 ∧ front = (make value).declaring outer inner)
    (kindOf : ∀ value, (make value).kind = kind := by intro _; rfl)
    (shape : ∀ payload : EntryPayload, payload.kind = kind → ∃ value, payload = make value := by
      intro payload same; cases payload <;> first | exact ⟨_, rfl⟩ | cases same) :
    Reads Wire (2 ^ 64) 1 (read >>= fun value => pure (make value)) (encodedForm kind) (declaredForm kind) := by
  refine (inner.bind fun value => .pure (make value)).mono ?_ ?_
  · intro payload front formed
    obtain ⟨same, valid, rfl⟩ := formed
    obtain ⟨value, rfl⟩ := shape payload same
    exact ⟨value, _, [], (List.append_nil _).symm, fewer value valid, rfl, rfl⟩
  · intro payload front formed
    obtain ⟨value, _, _, rfl, formed, rfl, rfl⟩ := formed
    rw [List.append_nil]
    exact ⟨kindOf value, further value _ formed⟩

private theorem kind_reads {encode : α → Bytes} {valid : α → Prop}
    (inner : ItemReads 1 read (encodedWhen encode valid))
    (bytesOf : ∀ value, (make value).encoding = encode value)
    (validOf : ∀ value, (make value).Valid ↔ valid value := by
      simp [valid_iff, paths, value?, xorBytes, bit])
    (plain : ∀ value, (make value).declaring 0 0 = (make value).encoding := by intro _; rfl)
    (kindOf : ∀ value, (make value).kind = kind := by intro _; rfl)
    (shape : ∀ payload : EntryPayload, payload.kind = kind → ∃ value, payload = make value := by
      intro payload same; cases payload <;> first | exact ⟨_, rfl⟩ | cases same) :
    Reads Wire (2 ^ 64) 1 (read >>= fun value => pure (make value)) (encodedForm kind) (declaredForm kind) := by
  refine kind_brackets make inner ?_ ?_ kindOf shape
  · intro value valid
    exact ⟨bytesOf value, (validOf value).mp valid⟩
  · intro value front formed
    refine ⟨(validOf value).mpr formed.2, 0, 0, Nat.zero_le _, Nat.zero_le _, ?_⟩
    rw [plain, bytesOf]
    exact formed.1

private theorem plain_kind_reads {encode : α → Bytes} (inner : ItemReads 1 read (encodedAs encode))
    (bytesOf : ∀ value, (make value).fields = encode value := by intro _; rfl)
    (carriesNone : ∀ value, (make value).paths = [] ∧ (make value).value? = none ∧
      (make value).xorBytes = none ∧ (make value).bit = none := by
        intro _; exact ⟨rfl, rfl, rfl, rfl⟩)
    (plain : ∀ value, (make value).declaring 0 0 = (make value).encoding := by intro _; rfl)
    (kindOf : ∀ value, (make value).kind = kind := by intro _; rfl)
    (shape : ∀ payload : EntryPayload, payload.kind = kind → ∃ value, payload = make value := by
      intro payload same; cases payload <;> first | exact ⟨_, rfl⟩ | exact ⟨(_, _), rfl⟩ | cases same) :
    Reads Wire (2 ^ 64) 1 (read >>= fun value => pure (make value)) (encodedForm kind) (declaredForm kind) := by
  have exact : ItemReads 1 read (encodedWhen encode fun _ => True) :=
    inner.congr fun _ _ => ⟨fun formed => ⟨formed, trivial⟩, And.left⟩
  refine kind_reads make exact ?_ ?_ plain kindOf shape
  · intro value
    rw [encoding, (carriesNone value).2.1, ← bytesOf]
    exact List.append_nil _
  · intro value
    obtain ⟨paths, value, xorBytes, bit⟩ := carriesNone value
    simp [valid_iff, paths, value, xorBytes, bit]

end Kinds

theorem decodePayload_reads (kind : EntryKind) : Reads Wire (2 ^ 64) 1 (decodePayload kind)
    (encodedForm kind) (declaredForm kind) := by
  cases kind with
  | spawn => exact plain_kind_reads .spawn decodeChildActor_reads
  | block => exact plain_kind_reads .block decodeBlock_reads
  | wake => exact plain_kind_reads .wake decodeWake_reads
  | timerSet => exact plain_kind_reads (fun timer => .timerSet timer.1 timer.2) decodeTimer_reads
  | timerFire => exact plain_kind_reads (fun timer => .timerFire timer.1 timer.2) decodeTimer_reads
  | clockRead => exact plain_kind_reads .clockRead (readOne_reads _ readUnsigned_reads)
  | send =>
    exact plain_kind_reads .send (decodeFrame_reads _ (fun frame => ⟨_, _, _, _, rfl⟩) fun _ _ _ _ => rfl)
  | recv =>
    exact plain_kind_reads .recv (decodeFrame_reads _ (fun frame => ⟨_, _, _, _, rfl⟩) fun _ _ _ _ => rfl)
  | fsWrite =>
    refine kind_reads .fsWrite decodeFsWrite_reads (fun _ => List.append_nil _) fun write => ?_
    simp [valid_iff, value?, xorBytes, bit]
  | fsFsync =>
    exact kind_reads .fsFsync (readOneWhen_reads _ decodePathRef_reads) fun _ => List.append_nil _
  | fsRead =>
    have validOf (read : FsReadPayload) : (fsRead read).Valid ↔ read.pathRef.Decodable := by
      simp [valid_iff, paths, value?, xorBytes, bit]
    refine kind_brackets .fsRead decodeFsRead_reads ?_ ?_
    · intro read valid
      exact ⟨List.append_nil _, (validOf read).mp valid⟩
    · intro read front formed
      obtain ⟨decodable, count, allowed, rfl⟩ := formed
      exact ⟨(validOf read).mpr decodable, count, 0, by omega, Nat.zero_le _, rfl⟩
  | rngDraw => exact plain_kind_reads .rngDraw decodeRngDraw_reads
  | outcome => exact kind_reads .outcome decodeOutcome_reads fun _ => rfl
  | assert => exact kind_reads .assert decodeAssert_reads fun _ => rfl
  | snapshot => exact plain_kind_reads .snapshot (readOne_reads _ decodeHash_reads)
  | epoch => exact plain_kind_reads .epoch (readOne_reads _ readUnsigned_reads)
  | inputStep => exact kind_reads .inputStep decodeInputStep_reads fun _ => rfl
  | capRequest => exact plain_kind_reads .capRequest decodeCapRequest_reads
  | capGrant => exact plain_kind_reads .capGrant decodeCapGrant_reads
  | capInvoke => exact plain_kind_reads .capInvoke decodeCapInvoke_reads
  | capRevoke => exact plain_kind_reads .capRevoke decodeCapRevoke_reads
  | fault =>
    refine kind_brackets .fault decodeFaultPayload_reads ?_ ?_
    · intro injected valid
      exact ⟨List.append_nil _, (fault_valid_iff injected).mp valid⟩
    · intro injected front formed
      obtain ⟨valid, outer, inner, ⟨outside, inside⟩, rfl⟩ := formed
      exact ⟨(fault_valid_iff injected).mpr valid, outer, inner, outside.2, inside.2, rfl⟩
  | stepBegin => exact plain_kind_reads .stepBegin decodeStepBegin_reads
  | stepEnd => exact kind_reads .stepEnd decodeStepEnd_reads fun _ => rfl

end Ldgr.Format
