import Ldgr.Format.Cbor.Decode
import Ldgr.Sim.Config

/-! Versioned canonical encoding of a run configuration: `[version, { fields }]`, with ten required
fields and three that have defaults. -/

namespace Ldgr.Sim

open Base Format Cbor

namespace ConfigCanonical

def formatVersion : UInt64 := 2

def maxDnsNameLen : Nat := 255

end ConfigCanonical

inductive ConfigCanonicalError where
  | cbor (fault : CborError)
  | unsupportedVersion (version : UInt64)
  | wrongDocumentShape
  | unknownField (field : String)
  | missingField (field : String)
  | wrongFieldType (field : String)
  | invalidHashLength (field : String) (len : Nat)
  | invalidPolicyTag (tag : UInt64)
  | invalidFaultTag (tag : UInt64)
  | invalidFsJournalingTag (tag : UInt64)
  | fsJournalingNotSupported
  | nonFiniteFloat (field : String)
  | integerOutOfRange (field : String)
  /-- The bound has no representable draw modulus. -/
  | invalidMaxDelayTicks (ticks : UInt64)
  | invalidLinkJitter (ticks : UInt64)
  | invalidReorderWindow (window : UInt64)
  | invalidQueuePolicyTag (tag : UInt64)
  | dnsNameTooLong (len : Nat)
  | duplicateDnsName (name : String)
  | probabilityOutOfRange (field : String)
  deriving DecidableEq

namespace ConfigCanonical

/-! ## Encoding -/

def float (value : Float) (field : String) : Except ConfigCanonicalError CborValue :=
  if value.isFinite then .ok (.float value) else .error (.nonFiniteFloat field)

def hashValue (hash : EntryHash) : CborValue :=
  .bytes hash.toFramedBytes

def optionalValue (value : Option UInt64) : CborValue :=
  match value with
  | some value => .unsigned value
  | none => .null

def queuePolicyTag : QueueFullPolicy → UInt64
  | .drop => 0
  | .block => 1

def linkValue (link : LinkConfig) : Except ConfigCanonicalError CborValue := do
  if link.jitter = wordMax then .error (.invalidLinkJitter link.jitter)
  else if maxReorderWindow < link.reorderWindow then .error (.invalidReorderWindow link.reorderWindow)
  else do
    let lossProbability ← float link.lossProbability.value "links.loss_probability"
    let items :=
      [.unsigned link.baseDelay, .unsigned link.jitter, lossProbability, .unsigned link.reorderWindow]
    -- The default queue keeps the four-item shape of documents older than bounded queues.
    if link.capacity = none ∧ link.queuePolicy = .drop then pure (.array items)
    else
      pure (.array (items ++ [optionalValue link.capacity, .unsigned (queuePolicyTag link.queuePolicy)]))

def linkEntryValue (entry : UInt64 × UInt64 × LinkConfig) : Except ConfigCanonicalError CborValue := do
  let link ← linkValue entry.2.2
  pure (.array [.unsigned entry.1, .unsigned entry.2.1, link])

def swarmValue (swarm : SwarmConfig) : Except ConfigCanonicalError CborValue :=
  if swarm.maxDelayTicks = wordMax then .error (.invalidMaxDelayTicks swarm.maxDelayTicks)
  else do
    let dropProbability ← float swarm.dropProbability.value "swarm.drop_probability"
    let delayProbability ← float swarm.delayProbability.value "swarm.delay_probability"
    let crashProbability ← float swarm.crashProbability.value "swarm.crash_probability"
    pure (.array [dropProbability, delayProbability, .unsigned swarm.maxDelayTicks, crashProbability,
      .unsigned swarm.faultClassesPerRun])

def policyValue : Policy → Except ConfigCanonicalError CborValue
  | .random => pure (.array [.unsigned 0])
  | .pct priorityChanges => pure (.array [.unsigned 1, .unsigned priorityChanges])
  | .bandit explorationConstant pctMix => do
      let explorationConstant ← float explorationConstant "policy.bandit.exploration_constant"
      let pctMix ← float pctMix.value "policy.bandit.pct_mix"
      pure (.array [.unsigned 2, explorationConstant, pctMix])
  | .replay => pure (.array [.unsigned 3])
  | .dpor => pure (.array [.unsigned 4])

def faultValue : SimFault → CborValue
  | .drop id => .array [.unsigned 0, hashValue id]
  | .delay send ticks => .array [.unsigned 1, hashValue send, .unsigned ticks]
  | .partition source target =>
    .array [.unsigned 2, .unsigned source.id.toUInt64, .unsigned target.id.toUInt64]
  | .crash id => .array [.unsigned 3, hashValue id]
  | .corrupt write xorMask => .array [.unsigned 4, hashValue write, .unsigned xorMask]
  | .crashState write state => .array [.unsigned 5, hashValue write, .unsigned state]
  | .duplicate send => .array [.unsigned 6, hashValue send]

def fsJournalingTag : JournalingMode → UInt64
  | .writeback => 0
  | .ordered => 1
  | .data => 2

def fsJournalingValue {features : Features} (mode : FsJournaling features) : CborValue :=
  if features.fsJournaling then optionalValue (mode.1.map fsJournalingTag) else .null

def dnsEntryValue (entry : String × UInt64) : CborValue :=
  .array [.text entry.1, .unsigned entry.2]

def fields {features : Features} (config : RunConfig features) :
    Except ConfigCanonicalError (List (CborValue × CborValue)) := do
  let links ← config.links.mapM linkEntryValue
  let swarm ← swarmValue config.swarm
  let policy ← policyValue config.policy
  pure [(.text "dns", .array (config.dns.entries.map dnsEntryValue)),
     (.text "seed", hashValue config.seed),
     (.text "links", .array links),
     (.text "swarm", swarm),
     (.text "policy", policy),
     (.text "monitor", .bool config.monitor),
     (.text "max_steps", .unsigned config.maxSteps),
     (.text "dropped_events", .array (config.droppedEvents.map hashValue)),
     (.text "fs_journaling", fsJournalingValue config.fsJournaling),
     (.text "fault_schedule", .array (config.faultSchedule.map faultValue)),
     (.text "reorder_draw", .bool config.reorderDraw),
     (.text "max_file_extent", optionalValue config.maxFileExtent),
     (.text "max_resident_bytes", optionalValue config.maxResidentBytes)]

/-! ## Scalars -/

def boolOf (value : CborValue) (field : String) : Except ConfigCanonicalError Bool :=
  match value with
  | .bool value => .ok value
  | _ => .error (.wrongFieldType field)

def u64Of (value : CborValue) (field : String) : Except ConfigCanonicalError UInt64 :=
  match value with
  | .unsigned value => .ok value
  | _ => .error (.wrongFieldType field)

/-- A word of the format is a word of the machine. -/
def usizeOf (value : CborValue) (field : String) : Except ConfigCanonicalError UInt64 :=
  u64Of value field

def optionalU64 (value : CborValue) (field : String) : Except ConfigCanonicalError (Option UInt64) :=
  match value with
  | .null => .ok none
  | .unsigned value => .ok (some value)
  | _ => .error (.wrongFieldType field)

def u32Of (value : CborValue) (field : String) : Except ConfigCanonicalError UInt32 :=
  match value with
  | .unsigned value =>
    if value.toNat < 2 ^ 32 then .ok value.toUInt32 else .error (.integerOutOfRange field)
  | _ => .error (.wrongFieldType field)

def finiteFloatOf (value : CborValue) (field : String) : Except ConfigCanonicalError Float :=
  match value with
  | .float value => if value.isFinite then .ok value else .error (.nonFiniteFloat field)
  | _ => .error (.wrongFieldType field)

def probabilityOf (value : CborValue) (field : String) : Except ConfigCanonicalError Probability :=
  match value with
  | .float value =>
    match Probability.new value with
    | .ok probability => .ok probability
    | .error .nonFinite => .error (.nonFiniteFloat field)
    | .error .outOfRange => .error (.probabilityOutOfRange field)
  | _ => .error (.wrongFieldType field)

def decodeHash (value : CborValue) (field : String) : Except ConfigCanonicalError EntryHash :=
  match value with
  | .bytes raw =>
    match EntryHash.fromFramedBytes raw with
    | .ok hash => .ok hash
    | .error _ => .error (.invalidHashLength field raw.length)
  | _ => .error (.wrongFieldType field)

/-! ## Fields -/

def decodeHashList (value : CborValue) (field : String) : Except ConfigCanonicalError (List EntryHash) :=
  match value with
  | .array items => items.mapM (decodeHash · field)
  | _ => .error (.wrongFieldType field)

def decodePolicy (value : CborValue) : Except ConfigCanonicalError Policy :=
  match value with
  | .array (.unsigned tag :: rest) =>
    match tag.toNat, rest with
    | 0, [] => .ok .random
    | 1, [priorityChanges] => do
        return .pct (← usizeOf priorityChanges "policy.pct.priority_changes")
    | 2, [explorationConstant, pctMix] => do
        let explorationConstant ← finiteFloatOf explorationConstant "policy.bandit.exploration_constant"
        return .bandit explorationConstant (← probabilityOf pctMix "policy.bandit.pct_mix")
    | 3, [] => .ok .replay
    | 4, [] => .ok .dpor
    | known, _ =>
      if known ≤ 4 then .error (.wrongFieldType "policy") else .error (.invalidPolicyTag tag)
  | _ => .error (.wrongFieldType "policy")

def decodeSwarm (value : CborValue) : Except ConfigCanonicalError SwarmConfig :=
  match value with
  | .array [dropProbability, delayProbability, maxDelayTicks, crashProbability, classes] => do
      let maxDelayTicks ← u64Of maxDelayTicks "swarm.max_delay_ticks"
      if maxDelayTicks = wordMax then .error (.invalidMaxDelayTicks maxDelayTicks)
      else do
        let dropProbability ← probabilityOf dropProbability "swarm.drop_probability"
        let delayProbability ← probabilityOf delayProbability "swarm.delay_probability"
        let crashProbability ← probabilityOf crashProbability "swarm.crash_probability"
        let faultClassesPerRun ← usizeOf classes "swarm.fault_classes_per_run"
        pure { dropProbability, delayProbability, maxDelayTicks, crashProbability, faultClassesPerRun }
  | _ => .error (.wrongFieldType "swarm")

/-- The queue of a link: absent in the four-item shape, spelled out in the six-item one. -/
def decodeQueue (items : List CborValue) : Except ConfigCanonicalError (Option UInt64 × QueueFullPolicy) :=
  match items with
  | [capacity, queuePolicy] => do
      let capacity ← optionalU64 capacity "links.capacity"
      match queuePolicy with
      | .unsigned tag =>
        if tag = 0 then pure (capacity, .drop)
        else if tag = 1 then pure (capacity, .block)
        else .error (.invalidQueuePolicyTag tag)
      | _ => .error (.wrongFieldType "links.queue_policy")
  | _ => .ok (none, .drop)

def decodeLinkItems (baseDelay jitter lossProbability reorderWindow : CborValue)
    (queue : List CborValue) (source target : CborValue) :
    Except ConfigCanonicalError (UInt64 × UInt64 × LinkConfig) := do
  let jitter ← u64Of jitter "links.jitter"
  if jitter = wordMax then .error (.invalidLinkJitter jitter)
  else do
    let reorderWindow ← usizeOf reorderWindow "links.reorder_window"
    if maxReorderWindow < reorderWindow then .error (.invalidReorderWindow reorderWindow)
    else do
      let (capacity, queuePolicy) ← decodeQueue queue
      let source ← usizeOf source "links.from"
      let target ← usizeOf target "links.to"
      let baseDelay ← u64Of baseDelay "links.base_delay"
      let lossProbability ← probabilityOf lossProbability "links.loss_probability"
      pure (source, target,
        { baseDelay, jitter, lossProbability, reorderWindow, capacity, queuePolicy })

def decodeLink (value : CborValue) : Except ConfigCanonicalError (UInt64 × UInt64 × LinkConfig) :=
  match value with
  | .array [source, target, .array (baseDelay :: jitter :: lossProbability :: reorderWindow :: queue)] =>
    if queue.length = 0 ∨ queue.length = 2 then
      decodeLinkItems baseDelay jitter lossProbability reorderWindow queue source target
    else .error (.wrongFieldType "links")
  | _ => .error (.wrongFieldType "links")

def decodeLinks (value : CborValue) : Except ConfigCanonicalError (List (UInt64 × UInt64 × LinkConfig)) :=
  match value with
  | .array items => items.mapM decodeLink
  | _ => .error (.wrongFieldType "links")

def decodeDnsEntry (table : DnsTable) (item : CborValue) : Except ConfigCanonicalError DnsTable :=
  match item with
  | .array [.text name, actor] =>
    if maxDnsNameLen < name.utf8ByteSize then .error (.dnsNameTooLong name.utf8ByteSize)
    else do
      let actor ← usizeOf actor "dns.actor"
      match table.lookup name with
      | some _ => .error (.duplicateDnsName name)
      | none => pure (table.insert name actor)
  | .array [_, _] => .error (.wrongFieldType "dns.name")
  | _ => .error (.wrongFieldType "dns")

def decodeDns (value : CborValue) : Except ConfigCanonicalError DnsTable :=
  match value with
  | .array items => items.foldlM decodeDnsEntry .empty
  | _ => .error (.wrongFieldType "dns")

def decodeFault (value : CborValue) : Except ConfigCanonicalError SimFault :=
  match value with
  | .array (.unsigned tag :: rest) =>
    match tag.toNat, rest with
    | 0, [id] => do return .drop (← decodeHash id "fault_schedule.drop.id")
    | 1, [send, ticks] => do
        let send ← decodeHash send "fault_schedule.delay.send"
        return .delay send (← u64Of ticks "fault_schedule.delay.ticks")
    | 2, [source, target] => do
        let source ← u32Of source "fault_schedule.partition.src"
        return .partition ⟨source⟩ ⟨← u32Of target "fault_schedule.partition.dst"⟩
    | 3, [id] => do return .crash (← decodeHash id "fault_schedule.crash.id")
    | 4, [write, xorMask] => do
        let write ← decodeHash write "fault_schedule.corrupt.write"
        return .corrupt write (← u64Of xorMask "fault_schedule.corrupt.xor_mask")
    | 5, [write, state] => do
        let write ← decodeHash write "fault_schedule.crash_state.write"
        return .crashState write (← u64Of state "fault_schedule.crash_state.state")
    | 6, [send] => do return .duplicate (← decodeHash send "fault_schedule.duplicate.send")
    | known, _ =>
      if known ≤ 6 then .error (.wrongFieldType "fault_schedule")
      else .error (.invalidFaultTag tag)
  | _ => .error (.wrongFieldType "fault_schedule")

def decodeFaults (value : CborValue) : Except ConfigCanonicalError (List SimFault) :=
  match value with
  | .array items => items.mapM decodeFault
  | _ => .error (.wrongFieldType "fault_schedule")

def decodeFsJournaling (features : Features) (value : CborValue) :
    Except ConfigCanonicalError (FsJournaling features) :=
  match value with
  | .null => .ok ⟨none, FsJournaling.none_allowed features⟩
  | .unsigned tag =>
    if 2 < tag.toNat then .error (.invalidFsJournalingTag tag)
    else if supported : features.fsJournaling = true then
      let mode := match tag.toNat with
        | 0 => .writeback
        | 1 => .ordered
        | _ => .data
      .ok ⟨some mode, fun unsupported => absurd (supported.symm.trans unsupported) nofun⟩
    else .error .fsJournalingNotSupported
  | _ => .error (.wrongFieldType "fs_journaling")

/-! ## Documents -/

/-- The fields met so far. -/
structure DecodedFields (features : Features) where
  dns : Option DnsTable := none
  seed : Option EntryHash := none
  links : Option (List (UInt64 × UInt64 × LinkConfig)) := none
  swarm : Option SwarmConfig := none
  policy : Option Policy := none
  monitor : Option Bool := none
  maxSteps : Option UInt64 := none
  fsJournaling : Option (FsJournaling features) := none
  droppedEvents : Option (List EntryHash) := none
  faultSchedule : Option (List SimFault) := none
  reorderDraw : Option Bool := none
  maxFileExtent : Option (Option UInt64) := none
  maxResidentBytes : Option (Option UInt64) := none

def decodeField {features : Features} (fields : DecodedFields features) :
    CborValue × CborValue → Except ConfigCanonicalError (DecodedFields features)
  | (.text "dns", value) => do return { fields with dns := some (← decodeDns value) }
  | (.text "seed", value) => do return { fields with seed := some (← decodeHash value "seed") }
  | (.text "links", value) => do return { fields with links := some (← decodeLinks value) }
  | (.text "swarm", value) => do return { fields with swarm := some (← decodeSwarm value) }
  | (.text "policy", value) => do return { fields with policy := some (← decodePolicy value) }
  | (.text "monitor", value) => do return { fields with monitor := some (← boolOf value "monitor") }
  | (.text "max_steps", value) => do
      return { fields with maxSteps := some (← usizeOf value "max_steps") }
  | (.text "fs_journaling", value) => do
      return { fields with fsJournaling := some (← decodeFsJournaling features value) }
  | (.text "dropped_events", value) => do
      return { fields with droppedEvents := some (← decodeHashList value "dropped_events") }
  | (.text "fault_schedule", value) => do
      return { fields with faultSchedule := some (← decodeFaults value) }
  | (.text "reorder_draw", value) => do
      return { fields with reorderDraw := some (← boolOf value "reorder_draw") }
  | (.text "max_file_extent", value) => do
      return { fields with maxFileExtent := some (← optionalU64 value "max_file_extent") }
  | (.text "max_resident_bytes", value) => do
      return { fields with maxResidentBytes := some (← optionalU64 value "max_resident_bytes") }
  | (.text name, _) => .error (.unknownField name)
  | _ => .error (.wrongFieldType "map key")

def takeField {α : Type} (field : Option α) (name : String) : Except ConfigCanonicalError α :=
  match field with
  | some value => .ok value
  | none => .error (.missingField name)

/-- Required fields must have been met; the first one missing is reported. -/
def DecodedFields.build {features : Features} (fields : DecodedFields features) :
    Except ConfigCanonicalError (RunConfig features) := do
  let dns ← takeField fields.dns "dns"
  let seed ← takeField fields.seed "seed"
  let links ← takeField fields.links "links"
  let swarm ← takeField fields.swarm "swarm"
  let policy ← takeField fields.policy "policy"
  let monitor ← takeField fields.monitor "monitor"
  let maxSteps ← takeField fields.maxSteps "max_steps"
  let fsJournaling ← takeField fields.fsJournaling "fs_journaling"
  let droppedEvents ← takeField fields.droppedEvents "dropped_events"
  let faultSchedule ← takeField fields.faultSchedule "fault_schedule"
  pure
    { dns, seed, links, swarm, policy, monitor, maxSteps, fsJournaling, droppedEvents, faultSchedule
      reorderDraw := fields.reorderDraw.getD false
      maxFileExtent := fields.maxFileExtent.getD none
      maxResidentBytes := fields.maxResidentBytes.getD none }

end ConfigCanonical

namespace RunConfig

open ConfigCanonical

variable {features : Features}

def toCanonicalBytes (config : RunConfig features) : Except ConfigCanonicalError Bytes := do
  let fields ← fields config
  ((CborValue.array [.unsigned ConfigCanonical.formatVersion, .map fields]).toCanonicalBytes).mapError .cbor

def fromCanonicalBytes (input : Bytes) : Except ConfigCanonicalError (RunConfig features) := do
  let document ← (CborValue.fromCanonicalBytes input).mapError .cbor
  match document with
  | .array [.unsigned version, body] =>
    if version = ConfigCanonical.formatVersion then
      match body with
      | .map fields => do
          let decoded ← fields.foldlM decodeField {}
          decoded.build
      | _ => .error .wrongDocumentShape
    else .error (.unsupportedVersion version)
  | _ => .error .wrongDocumentShape

/-- The hash that names a configuration in caches and certificates. -/
def canonicalHash (blake3 : Bytes → EntryHash) (config : RunConfig features) :
    Except ConfigCanonicalError EntryHash := do
  let bytes ← config.toCanonicalBytes
  pure (blake3 bytes)

end RunConfig

end Ldgr.Sim
