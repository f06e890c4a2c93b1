import Ldgr.Format.Cbor.Canonicality
import Ldgr.Journal.ActorMap
import Ldgr.Sim.ConfigCanonical

/-! A configuration that encodes is decoded again, unless its DNS table has an oversized name. -/

namespace Ldgr.Sim

open Base Format Cbor List CborValue

namespace ConfigCanonical

/-! ## Scalars -/

variable {value encoded item : CborValue} {field : String} {items : List CborValue}
  {link : UInt64 × UInt64 × LinkConfig} {features : Features} {config : RunConfig features}

theorem pure_eq_ok {α : Type} {content other : α} :
    (pure content : Except ConfigCanonicalError α) = .ok other ↔ content = other :=
  ⟨Except.ok.inj, congrArg _⟩

theorem float_eq_ok {number : Float} :
    float number field = .ok encoded ↔ number.isFinite = true ∧ encoded = .float number := by
  unfold float
  split_ifs with finite <;> simp [finite, eq_comm]

theorem boolOf_eq_ok {content : Bool} : boolOf value field = .ok content ↔ value = .bool content := by
  cases value <;> simp [boolOf]

theorem u64Of_eq_ok {content : UInt64} : u64Of value field = .ok content ↔ value = .unsigned content := by
  cases value <;> simp [u64Of]

theorem usizeOf_eq_ok {content : UInt64} :
    usizeOf value field = .ok content ↔ value = .unsigned content :=
  u64Of_eq_ok

theorem optionalU64_eq_ok {content : Option UInt64} :
    optionalU64 value field = .ok content ↔ value = optionalValue content := by
  cases content <;> cases value <;> simp [optionalU64, optionalValue]

theorem u32Of_eq_ok {content : UInt32} :
    u32Of value field = .ok content ↔ value = .unsigned content.toUInt64 := by
  cases value with
  | unsigned number =>
    rw [u32Of, unsigned.injEq]
    split_ifs with small
    · rw [Except.ok.injEq]
      constructor
      · rintro rfl
        rw [toUInt64_toUInt32 small]
      · rintro rfl
        exact UInt32.toUInt32_toUInt64 content
    · refine iff_of_false nofun fun same => small ?_
      rw [same, UInt32.toNat_toUInt64]
      exact content.toNat_lt
  | _ => simp [u32Of]

theorem finiteFloatOf_eq_ok {content : Float} :
    finiteFloatOf value field = .ok content ↔ content.isFinite = true ∧ value = .float content := by
  cases value with
  | float number =>
    rw [finiteFloatOf, float.injEq]
    split_ifs with finite
    · rw [Except.ok.injEq]
      exact ⟨fun same => ⟨same ▸ finite, same⟩, And.right⟩
    · exact iff_of_false nofun fun same => finite (same.2 ▸ same.1)
  | _ => simp [finiteFloatOf]

theorem probabilityNew_eq_ok {number : Float} {content : Probability} :
    Probability.new number = .ok content ↔ number = content.value := by
  constructor
  · intro made
    unfold Probability.new at made
    split_ifs at made
    obtain rfl := Except.ok.inj made
    rfl
  · rintro rfl
    rw [Probability.new, dif_pos content.finite, dif_pos ⟨content.nonNegative, content.atMostOne⟩]

theorem probabilityOf_eq_ok {content : Probability} :
    probabilityOf value field = .ok content ↔ value = .float content.value := by
  cases value with
  | float number =>
    rw [probabilityOf, float.injEq, ← probabilityNew_eq_ok]
    cases Probability.new number with
    | ok probability => simp
    | error fault => cases fault <;> simp
  | _ => simp [probabilityOf]

theorem decodeHash_eq_ok {hash : EntryHash} :
    decodeHash value field = .ok hash ↔ value = hashValue hash := by
  cases value with
  | bytes content =>
    rw [decodeHash, hashValue, bytes.injEq, ← fromFramedBytes_eq_ok]
    cases EntryHash.fromFramedBytes content <;> simp
  | _ => simp [decodeHash, hashValue]

theorem float_probability (probability : Probability) (field : String) :
    float probability.value field = .ok (.float probability.value) :=
  float_eq_ok.mpr ⟨probability.finite, rfl⟩

/-! ## Fields -/

theorem decodeFault_eq_ok {fault : SimFault} : decodeFault value = .ok fault ↔ value = faultValue fault := by
  constructor
  · intro decoded
    unfold decodeFault at decoded
    split at decoded
    · rename_i tag rest
      have number : UInt64.ofNat tag.toNat = tag := UInt64.ofNat_toNat
      split at decoded
      any_goals split_ifs at decoded
      all_goals
        rename_i selected
        simp only [except_bind_eq_ok, decodeHash_eq_ok, u64Of_eq_ok, u32Of_eq_ok, pure_eq_ok] at decoded
        rw [selected] at number
        subst number
        first | obtain ⟨_, rfl, rfl⟩ := decoded | obtain ⟨_, rfl, _, rfl, rfl⟩ := decoded
        rfl
    · cases decoded
  · rintro rfl
    cases fault <;> simp [faultValue, decodeFault, except_ok_bind, decodeHash_eq_ok.mpr rfl, u64Of,
      u32Of_eq_ok.mpr rfl]

theorem decodePolicy_eq_ok {policy : Policy} : decodePolicy value = .ok policy ↔ policyValue policy = .ok value := by
  constructor
  · intro decoded
    unfold decodePolicy at decoded
    split at decoded
    · rename_i tag rest
      have number : UInt64.ofNat tag.toNat = tag := UInt64.ofNat_toNat
      split at decoded
      any_goals split_ifs at decoded
      all_goals
        rename_i selected
        simp only [except_bind_eq_ok, usizeOf_eq_ok, finiteFloatOf_eq_ok, probabilityOf_eq_ok, pure_eq_ok,
          Except.ok.injEq] at decoded
        rw [selected] at number
        subst number
        first | subst decoded | obtain ⟨_, rfl, rfl⟩ := decoded | obtain ⟨_, ⟨_, rfl⟩, _, rfl, rfl⟩ := decoded
        simp [policyValue, float_probability, float_eq_ok, except_bind_eq_ok, pure_eq_ok, *]
    · cases decoded
  · intro encodes
    cases policy with
    | bandit explorationConstant pctMix => 
      simp only [policyValue, except_bind_eq_ok, float_eq_ok, pure_eq_ok] at encodes
      obtain ⟨_, ⟨finite, rfl⟩, _, ⟨_, rfl⟩, rfl⟩ := encodes
      simp [decodePolicy, finiteFloatOf, finite, probabilityOf_eq_ok.mpr rfl, except_ok_bind]
    | _ =>
      obtain rfl := Except.ok.inj encodes
      simp [decodePolicy, usizeOf, u64Of]

theorem decodeSwarm_eq_ok {swarm : SwarmConfig} : decodeSwarm value = .ok swarm ↔ swarmValue swarm = .ok value := by
  constructor
  · intro decoded
    unfold decodeSwarm at decoded
    split at decoded
    · obtain ⟨_, ticks, rest⟩ := except_bind_eq_ok.mp decoded
      split_ifs at rest with unbounded
      simp only [except_bind_eq_ok, u64Of_eq_ok, usizeOf_eq_ok, probabilityOf_eq_ok, pure_eq_ok] at ticks rest
      obtain ⟨_, rfl, _, rfl, _, rfl, _, rfl, rfl⟩ := rest
      simp [swarmValue, unbounded, ticks, float_probability, except_ok_bind]
    · cases decoded
  · intro encodes
    unfold swarmValue at encodes
    split_ifs at encodes with unbounded
    simp only [float_probability, except_ok_bind, pure_eq_ok] at encodes
    subst encodes
    simp [decodeSwarm, u64Of, usizeOf, unbounded, probabilityOf_eq_ok.mpr rfl, except_ok_bind]

theorem decodeFsJournaling_eq_ok {mode : FsJournaling features} :
    decodeFsJournaling features value = .ok mode ↔ value = fsJournalingValue mode := by
  constructor
  · intro decoded
    unfold decodeFsJournaling at decoded
    split at decoded
    · obtain rfl := Except.ok.inj decoded
      unfold fsJournalingValue
      split_ifs <;> rfl
    · rename_i tag
      split_ifs at decoded with unknown supported
      have known : tag = 0 ∨ tag = 1 ∨ tag = 2 := by
        simp only [← UInt64.toNat_inj, UInt64.reduceToNat]
        omega
      obtain rfl := Except.ok.inj decoded
      rw [fsJournalingValue, if_pos supported]
      obtain rfl | rfl | rfl := known <;> rfl
    · cases decoded
  · rintro rfl
    obtain ⟨mode, supported⟩ := mode
    unfold fsJournalingValue
    split_ifs with built
    · rcases mode with _ | _ | _ | _ <;> simp [optionalValue, fsJournalingTag, decodeFsJournaling, built]
    · obtain rfl := supported (Bool.eq_false_of_not_eq_true built)
      rfl

/-! ## Links -/

/-- What follows the four items that every link has. -/
def linkItem (entry : UInt64 × UInt64 × LinkConfig) (queue : List CborValue) : CborValue :=
  .array [.unsigned entry.1, .unsigned entry.2.1,
    .array ([.unsigned entry.2.2.baseDelay, .unsigned entry.2.2.jitter,
      .float entry.2.2.lossProbability.value, .unsigned entry.2.2.reorderWindow] ++ queue)]

def queueItems (link : LinkConfig) : List CborValue :=
  [optionalValue link.capacity, .unsigned (queuePolicyTag link.queuePolicy)]

def DefaultQueue (link : LinkConfig) : Prop :=
  link.capacity = none ∧ link.queuePolicy = .drop

instance (link : LinkConfig) : Decidable (DefaultQueue link) :=
  inferInstanceAs (Decidable (_ ∧ _))

theorem decodeQueue_eq_ok {capacity : Option UInt64} {queuePolicy : QueueFullPolicy} :
    (items.length = 0 ∨ items.length = 2) ∧ decodeQueue items = .ok (capacity, queuePolicy) ↔
      items = [] ∧ capacity = none ∧ queuePolicy = .drop ∨
        items = [optionalValue capacity, .unsigned (queuePolicyTag queuePolicy)] := by
  constructor
  · rintro ⟨shaped, decoded⟩
    unfold decodeQueue at decoded
    split at decoded
    · obtain ⟨_, bounded, rest⟩ := except_bind_eq_ok.mp decoded
      obtain rfl := optionalU64_eq_ok.mp bounded
      split at rest
      · split_ifs at rest with drops blocks
        all_goals
          cases rest
          exact .inr (by simp [queuePolicyTag, *])
      · cases rest
    · rename_i other
      cases decoded
      match items, shaped with
      | [], _ => exact .inl ⟨rfl, rfl, rfl⟩
      | [first, second], _ => exact absurd rfl (other first second)
  · rintro (⟨rfl, rfl, rfl⟩ | rfl)
    · exact ⟨.inl rfl, rfl⟩
    · cases queuePolicy <;> simp [decodeQueue, optionalU64_eq_ok.mpr rfl, queuePolicyTag]

theorem decodeLink_eq_ok : decodeLink item = .ok link ↔
    link.2.2.jitter ≠ wordMax ∧ ¬maxReorderWindow < link.2.2.reorderWindow ∧
      (item = linkItem link [] ∧ DefaultQueue link.2.2 ∨ item = linkItem link (queueItems link.2.2)) := by
  constructor
  · intro decoded
    unfold decodeLink at decoded
    split at decoded
    · split_ifs at decoded with shaped
      obtain ⟨_, first, rest⟩ := except_bind_eq_ok.mp decoded
      split_ifs at rest with unbounded
      obtain ⟨_, second, rest⟩ := except_bind_eq_ok.mp rest
      split_ifs at rest with wide
      simp only [except_bind_eq_ok, u64Of_eq_ok, usizeOf_eq_ok, probabilityOf_eq_ok, pure_eq_ok] at first second rest
      obtain ⟨⟨_, _⟩, queued, _, rfl, _, rfl, _, rfl, _, rfl, rfl⟩ := rest
      subst first second
      refine ⟨unbounded, wide, ?_⟩
      obtain ⟨rfl, default⟩ | rfl := decodeQueue_eq_ok.mp ⟨shaped, queued⟩
      · exact .inl ⟨rfl, default⟩
      · exact .inr rfl
    · cases decoded
  · rintro ⟨unbounded, wide, shape⟩
    obtain ⟨queue, rfl, shaped, queued⟩ : ∃ queue, item = linkItem link queue ∧
        (queue.length = 0 ∨ queue.length = 2) ∧
          decodeQueue queue = .ok (link.2.2.capacity, link.2.2.queuePolicy) := by
      obtain ⟨rfl, default⟩ | rfl := shape
      · exact ⟨[], rfl, decodeQueue_eq_ok.mpr (.inl ⟨rfl, default⟩)⟩
      · exact ⟨_, rfl, decodeQueue_eq_ok.mpr (.inr rfl)⟩
    refine (if_pos shaped).trans ?_
    simp [decodeLinkItems, u64Of, usizeOf, unbounded, wide, queued, probabilityOf_eq_ok.mpr rfl, except_ok_bind]

theorem linkEntryValue_eq_ok : linkEntryValue link = .ok item ↔
    link.2.2.jitter ≠ wordMax ∧ ¬maxReorderWindow < link.2.2.reorderWindow ∧
      item = linkItem link (if DefaultQueue link.2.2 then [] else queueItems link.2.2) := by
  unfold linkEntryValue linkValue linkItem DefaultQueue
  split_ifs with unbounded wide default <;>
    simp [float_probability, queueItems, *, @eq_comm _ item]

/-! ## Collections -/

/-- `value` nests little, holds no map and is decoded to `content`. -/
structure Carries {α : Type} (decode : CborValue → Except ConfigCanonicalError α) (levels : Nat)
    (value : CborValue) (content : α) : Prop where
  mapFree : value.MapFree levels
  decodes : decode value = .ok content

section Collections

variable {α : Type} {decode : CborValue → Except ConfigCanonicalError α} {levels : Nat}

theorem mapFree_array {values : List CborValue} {contents : List α}
    (each : List.Forall₂ (Carries decode levels) values contents) :
    (array values).MapFree (levels + 1) := by
  induction each with
  | nil => exact forall_mem_nil _
  | cons carries _ ih => exact forall_mem_cons.mpr ⟨carries.mapFree, ih⟩

theorem mapM_decodes {values : List CborValue} {contents : List α}
    (each : List.Forall₂ (Carries decode levels) values contents) :
    values.mapM decode = .ok contents :=
  except_mapM_eq_ok.mpr (each.imp fun _ _ carries => carries.decodes)

theorem forall₂_carries {encode : α → CborValue}
    (each : ∀ content, Carries decode levels (encode content) content) (contents : List α) :
    List.Forall₂ (Carries decode levels) (contents.map encode) contents :=
  forall₂_map_left_iff.mpr (forall₂_same.mpr fun content _ => each content)

end Collections

theorem mapFree_optionalValue (levels : Nat) (content : Option UInt64) :
    (optionalValue content).MapFree levels := by
  cases content <;> simp [optionalValue, CborValue.MapFree]

theorem carries_hash (field : String) (hash : EntryHash) :
    Carries (decodeHash · field) 0 (hashValue hash) hash :=
  ⟨trivial, decodeHash_eq_ok.mpr rfl⟩

theorem carries_optional (field : String) (content : Option UInt64) :
    Carries (optionalU64 · field) 0 (optionalValue content) content :=
  ⟨mapFree_optionalValue 0 content, optionalU64_eq_ok.mpr rfl⟩

theorem carries_fault (fault : SimFault) : Carries decodeFault 1 (faultValue fault) fault :=
  ⟨by cases fault <;> simp [faultValue, hashValue, CborValue.MapFree], decodeFault_eq_ok.mpr rfl⟩

theorem carries_policy {policy : Policy} (encodes : policyValue policy = .ok value) :
    Carries decodePolicy 1 value policy := by
  refine ⟨?_, decodePolicy_eq_ok.mpr encodes⟩
  cases policy <;> simp only [policyValue, except_bind_eq_ok, float_eq_ok, pure_eq_ok] at encodes
  case bandit =>
    obtain ⟨_, ⟨_, rfl⟩, _, ⟨_, rfl⟩, rfl⟩ := encodes
    simp [CborValue.MapFree]
  all_goals simp [CborValue.MapFree, ← encodes]

theorem carries_swarm {swarm : SwarmConfig} (encodes : swarmValue swarm = .ok value) :
    Carries decodeSwarm 1 value swarm := by
  refine ⟨?_, decodeSwarm_eq_ok.mpr encodes⟩
  unfold swarmValue at encodes
  split_ifs at encodes
  simp only [float_probability, except_ok_bind, pure_eq_ok] at encodes
  simp [CborValue.MapFree, ← encodes]

theorem carries_link (encodes : linkEntryValue link = .ok value) : Carries decodeLink 2 value link := by
  obtain ⟨unbounded, narrow, rfl⟩ := linkEntryValue_eq_ok.mp encodes
  split_ifs with default
  · exact ⟨by simp [linkItem, CborValue.MapFree],
      decodeLink_eq_ok.mpr ⟨unbounded, narrow, .inl ⟨rfl, default⟩⟩⟩
  · exact ⟨by simp [linkItem, queueItems, CborValue.MapFree, mapFree_optionalValue],
      decodeLink_eq_ok.mpr ⟨unbounded, narrow, .inr rfl⟩⟩

theorem carries_fsJournaling (mode : FsJournaling features) :
    Carries (decodeFsJournaling features) 0 (fsJournalingValue mode) mode := by
  refine ⟨?_, decodeFsJournaling_eq_ok.mpr rfl⟩
  unfold fsJournalingValue
  split_ifs
  · exact mapFree_optionalValue 0 _
  · trivial

/-! ## DNS tables -/

theorem decodeDnsEntry_eq_ok {table after : DnsTable} {entry : String × UInt64} :
    decodeDnsEntry table (dnsEntryValue entry) = .ok after ↔
      entry.1.utf8ByteSize ≤ maxDnsNameLen ∧ table.lookup entry.1 = none ∧
        after = table.insert entry.1 entry.2 := by
  simp only [decodeDnsEntry, dnsEntryValue]
  split_ifs with long
  · simp [long]
  · rw [usizeOf, u64Of, except_ok_bind]
    cases table.lookup entry.1 with
    | none => simp [Nat.not_lt.mp long, pure, Except.pure, eq_comm]
    | some present => simp

/-- Each name is new when its turn comes, so only an oversized one stops the loop. -/
theorem foldlM_decodeDnsEntry {entries : List (String × UInt64)} {table after : DnsTable}
    (ascending : (table.entries ++ entries).Pairwise fun left right => left.1 < right.1) :
    (entries.map dnsEntryValue).foldlM decodeDnsEntry table = .ok after ↔
      (∀ entry ∈ entries, entry.1.utf8ByteSize ≤ maxDnsNameLen) ∧
        after = entries.foldl (fun table entry => table.insert entry.1 entry.2) table := by
  induction entries generalizing table with
  | nil => simp [pure, Except.pure, eq_comm]
  | cons entry entries ih =>
    have above : ∀ other ∈ table.entries, other.1 < entry.1 := fun other member =>
      (pairwise_append.mp ascending).2.2 other member entry mem_cons_self
    have absent : table.lookup entry.1 = none := by
      refine lookup_eq_none_iff.mpr fun other member => ?_
      simpa using (above other member).ne'
    have inserted : (table.insert entry.1 entry.2).entries = table.entries ++ [entry] :=
      SortedMap.insertEntry_of_above entry.2 above
    have rest := @ih (table.insert entry.1 entry.2) (by simpa [inserted] using ascending)
    rw [map_cons, foldlM_cons, except_bind_eq_ok, forall_mem_cons, foldl_cons]
    constructor
    · rintro ⟨between, first, others⟩
      obtain ⟨short, -, rfl⟩ := decodeDnsEntry_eq_ok.mp first
      obtain ⟨shorter, rfl⟩ := rest.mp others
      exact ⟨⟨short, shorter⟩, rfl⟩
    · rintro ⟨⟨short, shorter⟩, rfl⟩
      exact ⟨_, decodeDnsEntry_eq_ok.mpr ⟨short, absent, rfl⟩, rest.mpr ⟨shorter, rfl⟩⟩

theorem decodeDns_eq_ok {table after : DnsTable} :
    decodeDns (.array (table.entries.map dnsEntryValue)) = .ok after ↔
      (∀ entry ∈ table.entries, entry.1.utf8ByteSize ≤ maxDnsNameLen) ∧ after = table := by
  have folded := @foldlM_decodeDnsEntry table.entries .empty after table.ascending
  have same : table.entries.foldl (fun table entry => table.insert entry.1 entry.2) .empty = table :=
    SortedMap.ofList_entries table
  rw [same] at folded
  exact folded

theorem mapFree_dns (entries : List (String × UInt64)) :
    (array (entries.map dnsEntryValue)).MapFree 2 := by
  intro item member
  obtain ⟨entry, -, rfl⟩ := mem_map.mp member
  simp [dnsEntryValue, CborValue.MapFree]

/-! ## Documents -/

structure FieldValues where
  dns : CborValue
  seed : CborValue
  links : CborValue
  swarm : CborValue
  policy : CborValue
  monitor : CborValue
  maxSteps : CborValue
  droppedEvents : CborValue
  fsJournaling : CborValue
  faultSchedule : CborValue
  reorderDraw : CborValue
  maxFileExtent : CborValue
  maxResidentBytes : CborValue

namespace FieldValues

def get (values : FieldValues) : String → CborValue
  | "dns" => values.dns
  | "seed" => values.seed
  | "links" => values.links
  | "swarm" => values.swarm
  | "policy" => values.policy
  | "monitor" => values.monitor
  | "max_steps" => values.maxSteps
  | "dropped_events" => values.droppedEvents
  | "fs_journaling" => values.fsJournaling
  | "fault_schedule" => values.faultSchedule
  | "reorder_draw" => values.reorderDraw
  | "max_file_extent" => values.maxFileExtent
  | "max_resident_bytes" => values.maxResidentBytes
  | _ => .null

/-- The order of the encoder's list. -/
def listedNames : List String :=
  ["dns", "seed", "links", "swarm", "policy", "monitor", "max_steps", "dropped_events",
   "fs_journaling", "fault_schedule", "reorder_draw", "max_file_extent", "max_resident_bytes"]

/-- The canonical order of the keys: shorter first, then bytewise. -/
def orderedNames : List String :=
  ["dns", "seed", "links", "swarm", "policy", "monitor", "max_steps", "reorder_draw",
   "fs_journaling", "dropped_events", "fault_schedule", "max_file_extent", "max_resident_bytes"]

def entry (values : FieldValues) (name : String) : CborValue × CborValue :=
  (.text name, values.get name)

def document (values : FieldValues) (names : List String) : CborValue :=
  .array [.unsigned ConfigCanonical.formatVersion, .map (names.map values.entry)]

def keyed (name : String) : Bytes × String :=
  ((CborValue.text name).encoded, name)

theorem insertionSort_names : (listedNames.map keyed).insertionSort KeyLe = orderedNames.map keyed := by
  decide +kernel

variable {values : FieldValues}

theorem sorted_document (free : ∀ name ∈ listedNames, (values.get name).MapFree 3) :
    (values.document listedNames).sorted = values.document orderedNames := by
  let place (key : Bytes × String) : Bytes × (CborValue × CborValue) := (key.1, values.entry key.2)
  have placed := map_insertionSort (r := KeyLe) (s := KeyLe) place (listedNames.map keyed)
    fun _ _ _ _ => Iff.rfl
  have sortedKeys : CborValue.keyedEntries (listedNames.map values.entry) =
      (listedNames.map keyed).map place := by
    rw [CborValue.keyedEntries_eq, map_map, map_map]
    refine map_congr_left fun name member => ?_
    have kept := (free name member).sorted_eq
    exact congrArg (fun value => ((CborValue.text name).encoded, (CborValue.text name, value))) kept
  simp only [document, CborValue.sorted, CborValue.sortedItems]
  rw [sortedKeys, ← placed, insertionSort_names]
  rfl

theorem depth_document (free : ∀ name ∈ listedNames, (values.get name).MapFree 3) :
    (values.document listedNames).depth ≤ maxDepth := by
  refine Nat.lt_succ_iff.mp (depthItems_lt.mpr fun item member => ?_)
  simp only [mem_cons, not_mem_nil, or_false] at member
  obtain rfl | rfl := member
  · exact Nat.succ_pos _
  · refine depthEntries_lt.mpr fun entry inside => ?_
    obtain ⟨name, listed, rfl⟩ := mem_map.mp inside
    exact ⟨Nat.succ_pos _, lt_of_le_of_lt (free name listed).depth_le (by decide)⟩

end FieldValues

/-- What the thirteen values of `config` are, DNS names of any length included. -/
structure Describes {features : Features} (config : RunConfig features) (values : FieldValues) : Prop where
  dns : values.dns = .array (config.dns.entries.map dnsEntryValue)
  seed : Carries (decodeHash · "seed") 0 values.seed config.seed
  links : Carries decodeLinks 3 values.links config.links
  swarm : Carries decodeSwarm 1 values.swarm config.swarm
  policy : Carries decodePolicy 1 values.policy config.policy
  monitor : Carries (boolOf · "monitor") 0 values.monitor config.monitor
  maxSteps : Carries (usizeOf · "max_steps") 0 values.maxSteps config.maxSteps
  droppedEvents : Carries (decodeHashList · "dropped_events") 1 values.droppedEvents config.droppedEvents
  fsJournaling : Carries (decodeFsJournaling features) 0 values.fsJournaling config.fsJournaling
  faultSchedule : Carries decodeFaults 2 values.faultSchedule config.faultSchedule
  reorderDraw : Carries (boolOf · "reorder_draw") 0 values.reorderDraw config.reorderDraw
  maxFileExtent : Carries (optionalU64 · "max_file_extent") 0 values.maxFileExtent config.maxFileExtent
  maxResidentBytes :
    Carries (optionalU64 · "max_resident_bytes") 0 values.maxResidentBytes config.maxResidentBytes

theorem fields_eq_ok {entries : List (CborValue × CborValue)} (encodes : fields config = .ok entries) :
    ∃ values, Describes config values ∧ entries = FieldValues.listedNames.map values.entry := by
  obtain ⟨links, linked, rest⟩ := except_bind_eq_ok.mp encodes
  obtain ⟨swarm, swarmed, rest⟩ := except_bind_eq_ok.mp rest
  obtain ⟨policy, chosen, written⟩ := except_bind_eq_ok.mp rest
  obtain rfl := Except.ok.inj written
  have eachLink : List.Forall₂ (Carries decodeLink 2) links config.links :=
    ((except_mapM_eq_ok.mp linked).imp fun _ _ encoded => carries_link encoded).flip
  have eachDropped := forall₂_carries (carries_hash "dropped_events") config.droppedEvents
  have eachFault := forall₂_carries carries_fault config.faultSchedule
  refine ⟨{ dns := _, seed := _, links := _, swarm := _, policy := _, monitor := _, maxSteps := _
            droppedEvents := _, fsJournaling := _, faultSchedule := _, reorderDraw := _
            maxFileExtent := _, maxResidentBytes := _ }, ?_, rfl⟩
  exact
    { dns := rfl
      seed := carries_hash "seed" config.seed
      links := ⟨mapFree_array eachLink, mapM_decodes eachLink⟩
      swarm := carries_swarm swarmed
      policy := carries_policy chosen
      monitor := ⟨trivial, rfl⟩
      maxSteps := ⟨trivial, rfl⟩
      droppedEvents := ⟨mapFree_array eachDropped, mapM_decodes eachDropped⟩
      fsJournaling := carries_fsJournaling config.fsJournaling
      faultSchedule := ⟨mapFree_array eachFault, mapM_decodes eachFault⟩
      reorderDraw := ⟨trivial, rfl⟩
      maxFileExtent := carries_optional _ config.maxFileExtent
      maxResidentBytes := carries_optional _ config.maxResidentBytes }

theorem Describes.mapFree {values : FieldValues} (describes : Describes config values) (name : String)
    (listed : name ∈ FieldValues.listedNames) : (values.get name).MapFree 3 := by
  simp only [FieldValues.listedNames, mem_cons, not_mem_nil, or_false] at listed
  rcases listed with rfl | rfl | rfl | rfl | rfl | rfl | rfl | rfl | rfl | rfl | rfl | rfl | rfl
  · have free : values.dns.MapFree 2 := describes.dns ▸ mapFree_dns _
    exact free.mono (by decide)
  · exact describes.seed.mapFree.mono (by decide)
  · exact describes.links.mapFree
  · exact describes.swarm.mapFree.mono (by decide)
  · exact describes.policy.mapFree.mono (by decide)
  · exact describes.monitor.mapFree.mono (by decide)
  · exact describes.maxSteps.mapFree.mono (by decide)
  · exact describes.droppedEvents.mapFree.mono (by decide)
  · exact describes.fsJournaling.mapFree.mono (by decide)
  · exact describes.faultSchedule.mapFree.mono (by decide)
  · exact describes.reorderDraw.mapFree.mono (by decide)
  · exact describes.maxFileExtent.mapFree.mono (by decide)
  · exact describes.maxResidentBytes.mapFree.mono (by decide)

theorem decode_describes {values : FieldValues} (describes : Describes config values) : (do
      let decoded ← (FieldValues.orderedNames.map values.entry).foldlM (@decodeField features) {}
      decoded.build) = (decodeDns values.dns).map fun dns => { config with dns } := by
  simp only [FieldValues.orderedNames, FieldValues.entry, FieldValues.get, map_cons,
    map_nil, foldlM_cons, foldlM_nil, decodeField, describes.seed.decodes,
    describes.links.decodes, describes.swarm.decodes, describes.policy.decodes,
    describes.monitor.decodes, describes.maxSteps.decodes, describes.droppedEvents.decodes,
    describes.fsJournaling.decodes, describes.faultSchedule.decodes, describes.reorderDraw.decodes,
    describes.maxFileExtent.decodes, describes.maxResidentBytes.decodes]
  cases decodeDns values.dns <;> rfl

end ConfigCanonical

namespace RunConfig

open ConfigCanonical

/-- What a configuration encodes to is decoded to that configuration, except that the decoder bounds
the length of a DNS name and the encoder does not. -/
theorem fromCanonicalBytes_iff {features : Features} (config : RunConfig features) (out : Bytes)
    (encodes : config.toCanonicalBytes = .ok out) (fits : out.length < 2 ^ 64) :
    fromCanonicalBytes out = .ok config ↔
      ∀ entry ∈ config.dns.entries, entry.1.utf8ByteSize ≤ maxDnsNameLen := by
  obtain ⟨entries, listed, written⟩ := except_bind_eq_ok.mp encodes
  obtain ⟨values, describes, rfl⟩ := fields_eq_ok listed
  have encoded : (values.document FieldValues.listedNames).toCanonicalBytes = .ok out :=
    except_mapError_eq_ok.mp written
  have decoded := fromCanonicalBytes_image.2 _ _ encoded fits
    (FieldValues.depth_document describes.mapFree)
  rw [FieldValues.sorted_document describes.mapFree] at decoded
  have read : (fromCanonicalBytes out : Except _ (RunConfig features)) =
      (decodeDns values.dns).map fun dns => { config with dns } := by
    rw [fromCanonicalBytes, decoded, ← decode_describes describes]
    rfl
  have sameDns := @decodeDns_eq_ok config.dns
  rw [read, describes.dns]
  cases result : decodeDns (.array (config.dns.entries.map dnsEntryValue)) with
  | error fault =>
    refine iff_of_false nofun fun short => ?_
    exact nomatch result.symm.trans (sameDns.mpr ⟨short, rfl⟩)
  | ok table =>
    obtain ⟨short, rfl⟩ := sameDns.mp result
    exact iff_of_true rfl short

/-- The default configuration with one host name, of `length` bytes. -/
def named (length : Nat) : RunConfig ⟨false⟩ :=
  { RunConfig.default ⟨false⟩ with
    dns := SortedMap.empty.insert (String.ofList (List.replicate length 'a')) 1 }

theorem named_decoded : ∃ out, (named 3).toCanonicalBytes = .ok out ∧
    fromCanonicalBytes out = .ok (named 3) := by
  have encodes : (named 3).toCanonicalBytes.toOption.isSome = true := by decide +kernel
  cases written : (named 3).toCanonicalBytes with
  | error fault => simp [written, Except.toOption] at encodes
  | ok out =>
    have small : ((named 3).toCanonicalBytes.toOption.getD []).length < 2 ^ 64 := by decide +kernel
    have fits : out.length < 2 ^ 64 := by simpa [written, Except.toOption] using small
    exact ⟨out, rfl, (fromCanonicalBytes_iff (named 3) out written fits).mpr (by decide +kernel)⟩

/-- The encoder accepts a name of 256 bytes, and the decoder then refuses the document. -/
theorem named_refused : ∃ out, (named 256).toCanonicalBytes = .ok out ∧
    (fromCanonicalBytes out : Except _ (RunConfig ⟨false⟩)) = .error (.dnsNameTooLong 256) := by
  have refused : (match (named 256).toCanonicalBytes with
      | .ok out => match (fromCanonicalBytes out : Except _ (RunConfig ⟨false⟩)) with
        | .error fault => decide (fault = .dnsNameTooLong 256)
        | .ok _ => false
      | .error _ => false) = true := by decide +kernel
  cases written : (named 256).toCanonicalBytes with
  | error fault => simp [written] at refused
  | ok out =>
    cases read : (fromCanonicalBytes out : Except _ (RunConfig ⟨false⟩)) with
    | ok config => simp [written, read] at refused
    | error fault =>
      have reason : fault = .dnsNameTooLong 256 := by simpa [written, read] using refused
      exact ⟨out, rfl, read.trans (congrArg Except.error reason)⟩

end RunConfig

end Ldgr.Sim
