import Ldgr.Sim.ConfigCanonicalProperties

/-! Which documents are the encodings of the configurations they decode to: those that give every
field, list host names in order and leave a default queue out. -/

namespace Ldgr.Sim

open Base Format Cbor List

namespace ConfigCanonical

variable {value item : CborValue} {field : String} {items : List CborValue}
  {link : UInt64 × UInt64 × LinkConfig} {entries : List (CborValue × CborValue)}

/-! ## Links -/

/-- The entry of a link that writes out the queue it would have anyway. -/
def SpellsDefaultQueue : CborValue → Prop
  | .array [_, _, .array [_, _, _, _, .null, .unsigned tag]] => tag = 0
  | _ => False

theorem spellsDefaultQueue_queueItems :
    SpellsDefaultQueue (linkItem link (queueItems link.2.2)) ↔ DefaultQueue link.2.2 := by
  unfold DefaultQueue queueItems
  cases link.2.2.capacity with
  | some bound => exact iff_of_false id nofun
  | none =>
    cases link.2.2.queuePolicy with
    | drop => exact iff_of_true rfl ⟨rfl, rfl⟩
    | block => exact iff_of_false (show ¬(1 : UInt64) = 0 by decide) nofun

theorem linkEntryValue_iff (decoded : decodeLink item = .ok link) :
    linkEntryValue link = .ok item ↔ ¬SpellsDefaultQueue item := by
  obtain ⟨unbounded, narrow, shape⟩ := decodeLink_eq_ok.mp decoded
  rw [linkEntryValue_eq_ok, and_iff_right unbounded, and_iff_right narrow]
  obtain ⟨rfl, default⟩ | rfl := shape
  · rw [if_pos default]
    exact iff_of_true rfl id
  · rw [spellsDefaultQueue_queueItems]
    split_ifs with default
    · refine iff_of_false (fun same => ?_) (not_not.mpr default)
      simp [linkItem, queueItems] at same
    · exact iff_of_true rfl default

theorem mapM_linkEntryValue_iff {links : List (UInt64 × UInt64 × LinkConfig)}
    (decoded : items.mapM decodeLink = .ok links) :
    links.mapM linkEntryValue = .ok items ↔ ∀ item ∈ items, ¬SpellsDefaultQueue item := by
  rw [except_mapM_eq_ok]
  have each := except_mapM_eq_ok.mp decoded
  induction each with
  | nil => simp
  | cons first others ih =>
    rw [forall₂_cons, forall_mem_cons]
    exact and_congr (linkEntryValue_iff first) (ih (except_mapM_eq_ok.mpr others))

/-! ## Host names -/

def dnsName? : CborValue → Option String
  | .array [.text name, _] => some name
  | _ => none

theorem decodeDnsEntry_ok {table after : DnsTable} (decoded : decodeDnsEntry table item = .ok after) :
    ∃ entry, item = dnsEntryValue entry ∧ after = table.insert entry.1 entry.2 := by
  unfold decodeDnsEntry at decoded
  split at decoded
  · rename_i name actor
    split_ifs at decoded
    obtain ⟨content, read, rest⟩ := except_bind_eq_ok.mp decoded
    obtain rfl := usizeOf_eq_ok.mp read
    split at rest
    · cases rest
    · exact ⟨(name, content), rfl, (Except.ok.inj rest).symm⟩
  · cases decoded
  · cases decoded

theorem foldlM_decodeDnsEntry_ok {table after : DnsTable}
    (decoded : items.foldlM decodeDnsEntry table = .ok after) :
    ∃ entries : List (String × UInt64), items = entries.map dnsEntryValue ∧
      after = entries.foldl (fun table entry => table.insert entry.1 entry.2) table := by
  induction items generalizing table with
  | nil => exact ⟨[], rfl, (Except.ok.inj decoded).symm⟩
  | cons item items ih =>
    rw [foldlM_cons] at decoded
    obtain ⟨between, first, others⟩ := except_bind_eq_ok.mp decoded
    obtain ⟨entry, rfl, rfl⟩ := decodeDnsEntry_ok first
    obtain ⟨entries, rfl, rfl⟩ := ih others
    exact ⟨entry :: entries, rfl, rfl⟩

theorem filterMap_dnsName? (entries : List (String × UInt64)) :
    (entries.map dnsEntryValue).filterMap dnsName? = entries.map Prod.fst := by
  rw [filterMap_map]
  exact congrFun filterMap_eq_map entries

theorem dnsEntryValue_injective : Function.Injective dnsEntryValue := by
  rintro ⟨name, actor⟩ ⟨other, another⟩ same
  simpa [dnsEntryValue] using same

theorem dnsEntries_iff {table : DnsTable} (decoded : decodeDns (.array items) = .ok table) :
    table.entries.map dnsEntryValue = items ↔ (items.filterMap dnsName?).Pairwise (· < ·) := by
  obtain ⟨entries, rfl, rfl⟩ := foldlM_decodeDnsEntry_ok decoded
  rw [filterMap_dnsName?, pairwise_map, (map_injective_iff.mpr dnsEntryValue_injective).eq_iff]
  constructor
  · intro same
    rw [← same]
    exact (SortedMap.ofList entries).ascending
  · intro ascending
    exact SortedMap.entries_ofList ascending

/-! ## Keys -/

variable {features : Features}

/-- Whether a field of that name has been met. -/
def DecodedFields.has (fields : DecodedFields features) : String → Bool
  | "dns" => fields.dns.isSome
  | "seed" => fields.seed.isSome
  | "links" => fields.links.isSome
  | "swarm" => fields.swarm.isSome
  | "policy" => fields.policy.isSome
  | "monitor" => fields.monitor.isSome
  | "max_steps" => fields.maxSteps.isSome
  | "dropped_events" => fields.droppedEvents.isSome
  | "fs_journaling" => fields.fsJournaling.isSome
  | "fault_schedule" => fields.faultSchedule.isSome
  | "reorder_draw" => fields.reorderDraw.isSome
  | "max_file_extent" => fields.maxFileExtent.isSome
  | "max_resident_bytes" => fields.maxResidentBytes.isSome
  | _ => false

theorem decodeField_has {fields after : DecodedFields features} {entry : CborValue × CborValue}
    (decoded : decodeField fields entry = .ok after) :
    ∃ name ∈ FieldValues.listedNames, entry.1 = .text name ∧
      ∀ other ≠ name, after.has other = fields.has other := by
  unfold decodeField at decoded
  split at decoded
  all_goals first | cases decoded | skip
  all_goals
    obtain ⟨content, -, built⟩ := except_bind_eq_ok.mp decoded
    obtain rfl := Except.ok.inj built
    refine ⟨_, by decide, rfl, fun other differs => ?_⟩
    unfold DecodedFields.has
    split <;> first | rfl | exact absurd rfl differs

theorem foldlM_decodeField_has
    {fields after : DecodedFields features} (decoded : entries.foldlM decodeField fields = .ok after) :
    (∀ entry ∈ entries, ∃ name ∈ FieldValues.listedNames, entry.1 = .text name) ∧
      ∀ name, after.has name = true → fields.has name = true ∨ .text name ∈ entries.map Prod.fst := by
  induction entries generalizing fields with
  | nil =>
    obtain rfl := Except.ok.inj decoded
    exact ⟨forall_mem_nil _, fun _ => .inl⟩
  | cons entry entries ih =>
    rw [foldlM_cons] at decoded
    obtain ⟨between, first, others⟩ := except_bind_eq_ok.mp decoded
    obtain ⟨named, listed, key, kept⟩ := decodeField_has first
    obtain ⟨known, met⟩ := ih others
    refine ⟨forall_mem_cons.mpr ⟨⟨named, listed, key⟩, known⟩, fun name present => ?_⟩
    rw [map_cons, mem_cons, key, CborValue.text.injEq]
    by_cases same : name = named
    · exact .inr (.inl same)
    · exact (met name present).imp (fun before => (kept name same).symm.trans before) .inr

theorem takeField_eq_ok {α : Type} {field : Option α} {name : String} {content : α} :
    takeField field name = .ok content ↔ field = some content := by
  cases field <;> simp [takeField]

def optionalNames : List String :=
  ["reorder_draw", "max_file_extent", "max_resident_bytes"]

theorem build_has {fields : DecodedFields features} {config : RunConfig features}
    (built : fields.build = .ok config) (name : String) (listed : name ∈ FieldValues.listedNames)
    (required : name ∉ optionalNames) : fields.has name = true := by
  simp only [DecodedFields.build, except_bind_eq_ok, takeField_eq_ok] at built
  obtain ⟨_, dns, _, seed, _, links, _, swarm, _, policy, _, monitor, _, maxSteps, _, fsJournaling, _,
    droppedEvents, _, faultSchedule, -⟩ := built
  simp only [FieldValues.listedNames, mem_cons, not_mem_nil, or_false] at listed
  rcases listed with rfl | rfl | rfl | rfl | rfl | rfl | rfl | rfl | rfl | rfl | rfl | rfl | rfl
  all_goals first | exact absurd (by decide) required | simp [DecodedFields.has, *]

theorem ascending_orderedNames : (FieldValues.orderedNames.map CborValue.text).Pairwise
    fun left right => compareCanonicalKeys left.wire right.wire = .lt := by
  decide +kernel

theorem orderedNames_perm : FieldValues.listedNames.Perm FieldValues.orderedNames := by
  decide

theorem keys_eq {decoded : DecodedFields features}
    {config : RunConfig features} (canonical : (CborValue.map entries).Canonical)
    (read : entries.foldlM decodeField {} = .ok decoded) (built : decoded.build = .ok config)
    (optional : ∀ name ∈ optionalNames, .text name ∈ entries.map Prod.fst) :
    entries.map Prod.fst = FieldValues.orderedNames.map .text := by
  have ascending : (entries.map Prod.fst).Pairwise
      fun left right => compareCanonicalKeys left.wire right.wire = .lt :=
    pairwise_map.mpr canonical.2.2
  have nodup {keys : List CborValue}
      (ascending : keys.Pairwise fun left right => compareCanonicalKeys left.wire right.wire = .lt) :
      keys.Nodup :=
    ascending.imp fun below same => compareCanonicalKeys_ne below (congrArg CborValue.wire same)
  obtain ⟨known, met⟩ := foldlM_decodeField_has read
  refine List.Perm.eq_of_pairwise (fun left right _ _ before after => ?_) ascending ascending_orderedNames
    ((perm_ext_iff_of_nodup (nodup ascending) (nodup ascending_orderedNames)).mpr fun key => ?_)
  · exact absurd rfl (compareCanonicalKeys_ne (compareCanonicalKeys_lt_trans before after))
  · constructor
    · intro member
      obtain ⟨entry, inside, rfl⟩ := mem_map.mp member
      obtain ⟨name, listed, key⟩ := known entry inside
      exact key ▸ mem_map_of_mem (orderedNames_perm.mem_iff.mp listed)
    · intro member
      obtain ⟨name, ordered, rfl⟩ := mem_map.mp member
      by_cases required : name ∈ optionalNames
      · exact optional name required
      · have present := build_has built name (orderedNames_perm.mem_iff.mpr ordered) required
        refine (met name present).resolve_left fun initially => ?_
        unfold DecodedFields.has at initially
        split at initially <;> cases initially

theorem exists_content {names : List String}
    (nodup : names.Nodup) (keys : entries.map Prod.fst = names.map .text) :
    ∃ content : String → CborValue, entries = names.map fun name => (.text name, content name) := by
  induction names generalizing entries with
  | nil => exact ⟨fun _ => .null, map_eq_nil_iff.mp keys⟩
  | cons name names ih =>
    obtain ⟨fresh, nodup⟩ := nodup_cons.mp nodup
    obtain ⟨⟨key, value⟩, others, rfl, rfl, rest⟩ := map_eq_cons_iff.mp keys
    obtain ⟨content, rfl⟩ := ih nodup rest
    refine ⟨Function.update content name value, ?_⟩
    rw [map_cons, Function.update_self]
    refine congrArg _ (map_congr_left fun other member => ?_)
    have differs : other ≠ name := fun same => fresh (same ▸ member)
    rw [Function.update_of_ne differs]

theorem exists_values (keys : entries.map Prod.fst = FieldValues.orderedNames.map .text) :
    ∃ values : FieldValues, entries = FieldValues.orderedNames.map values.entry := by
  obtain ⟨content, rfl⟩ := exists_content (by decide) keys
  exact
    ⟨{ dns := content "dns", seed := content "seed", links := content "links"
       swarm := content "swarm", policy := content "policy", monitor := content "monitor"
       maxSteps := content "max_steps", droppedEvents := content "dropped_events"
       fsJournaling := content "fs_journaling", faultSchedule := content "fault_schedule"
       reorderDraw := content "reorder_draw", maxFileExtent := content "max_file_extent"
       maxResidentBytes := content "max_resident_bytes" }, rfl⟩

/-! ## Documents -/

/-- The decoder took each field of `config` from its value. -/
structure Decoded (config : RunConfig features) (values : FieldValues) : Prop where
  dns : decodeDns values.dns = .ok config.dns
  seed : decodeHash values.seed "seed" = .ok config.seed
  links : decodeLinks values.links = .ok config.links
  swarm : decodeSwarm values.swarm = .ok config.swarm
  policy : decodePolicy values.policy = .ok config.policy
  monitor : boolOf values.monitor "monitor" = .ok config.monitor
  maxSteps : usizeOf values.maxSteps "max_steps" = .ok config.maxSteps
  droppedEvents : decodeHashList values.droppedEvents "dropped_events" = .ok config.droppedEvents
  fsJournaling : decodeFsJournaling features values.fsJournaling = .ok config.fsJournaling
  faultSchedule : decodeFaults values.faultSchedule = .ok config.faultSchedule
  reorderDraw : boolOf values.reorderDraw "reorder_draw" = .ok config.reorderDraw
  maxFileExtent : optionalU64 values.maxFileExtent "max_file_extent" = .ok config.maxFileExtent
  maxResidentBytes : optionalU64 values.maxResidentBytes "max_resident_bytes" = .ok config.maxResidentBytes

variable {config : RunConfig features} {values : FieldValues}

theorem decoded_of_fields {decoded : DecodedFields features}
    (read : (FieldValues.orderedNames.map values.entry).foldlM decodeField {} = .ok decoded)
    (built : decoded.build = .ok config) : Decoded config values := by
  simp only [FieldValues.orderedNames, FieldValues.entry, FieldValues.get, map_cons,
    map_nil, foldlM_cons, foldlM_nil, decodeField, bind_assoc, pure_bind,
    except_bind_eq_ok] at read
  obtain ⟨_, dns, _, seed, _, links, _, swarm, _, policy, _, monitor, _, maxSteps, _, reorderDraw, _,
    fsJournaling, _, droppedEvents, _, faultSchedule, _, maxFileExtent, _, maxResidentBytes, met⟩ := read
  obtain rfl := Except.ok.inj met
  obtain rfl := Except.ok.inj built
  exact
    { dns, seed, links, swarm, policy, monitor, maxSteps, droppedEvents, fsJournaling, faultSchedule
      reorderDraw, maxFileExtent, maxResidentBytes }

theorem decodeHashList_eq_ok {hashes : List EntryHash}
    (decoded : decodeHashList value field = .ok hashes) : value = .array (hashes.map hashValue) := by
  unfold decodeHashList at decoded
  split at decoded
  · have each := (except_mapM_eq_ok.mp decoded).imp fun _ _ => decodeHash_eq_ok.mp
    rw [← forall₂_map_right_iff, forall₂_eq_eq_eq] at each
    rw [each]
  · cases decoded

theorem decodeFaults_eq_ok {faults : List SimFault}
    (decoded : decodeFaults value = .ok faults) : value = .array (faults.map faultValue) := by
  unfold decodeFaults at decoded
  split at decoded
  · have each := (except_mapM_eq_ok.mp decoded).imp fun _ _ => decodeFault_eq_ok.mp
    rw [← forall₂_map_right_iff, forall₂_eq_eq_eq] at each
    rw [each]
  · cases decoded

theorem decodeDns_array {table : DnsTable} (decoded : decodeDns value = .ok table) :
    ∃ items, value = .array items := by
  cases value with
  | array items => exact ⟨items, rfl⟩
  | _ => cases decoded

theorem decodeLinks_array {links : List (UInt64 × UInt64 × LinkConfig)}
    (decoded : decodeLinks value = .ok links) : ∃ items, value = .array items := by
  cases value with
  | array items => exact ⟨items, rfl⟩
  | _ => cases decoded

theorem fields_iff (decoded : Decoded config values) {names links : List CborValue}
    (dns : values.dns = .array names) (linked : values.links = .array links) :
    fields config = .ok (FieldValues.listedNames.map values.entry) ↔
      (names.filterMap dnsName?).Pairwise (· < ·) ∧ ∀ link ∈ links, ¬SpellsDefaultQueue link := by
  have nameless := decoded.dns
  have joined := decoded.links
  rw [dns] at nameless
  rw [linked] at joined
  rw [← dnsEntries_iff nameless, ← mapM_linkEntryValue_iff joined, fields,
    decodeSwarm_eq_ok.mp decoded.swarm, decodePolicy_eq_ok.mp decoded.policy, except_bind_eq_ok]
  simp only [except_ok_bind, FieldValues.listedNames, FieldValues.entry, FieldValues.get, map_cons,
    map_nil, pure, Except.pure, Except.ok.injEq, List.cons.injEq, Prod.mk.injEq, true_and, and_true,
    dns, linked, decodeHash_eq_ok.mp decoded.seed, boolOf_eq_ok.mp decoded.monitor,
    usizeOf_eq_ok.mp decoded.maxSteps, decodeHashList_eq_ok decoded.droppedEvents,
    ← decodeFsJournaling_eq_ok.mp decoded.fsJournaling, decodeFaults_eq_ok decoded.faultSchedule,
    boolOf_eq_ok.mp decoded.reorderDraw, optionalU64_eq_ok.mp decoded.maxFileExtent,
    optionalU64_eq_ok.mp decoded.maxResidentBytes, CborValue.array.injEq]
  constructor
  · rintro ⟨written, encodes, sameNames, rfl⟩
    exact ⟨sameNames, encodes⟩
  · rintro ⟨sameNames, encodes⟩
    exact ⟨links, encodes, sameNames, rfl⟩

/-- Every field is there, host names ascend and no link writes out a default queue. -/
structure Spelled (fields : List (CborValue × CborValue)) : Prop where
  optional : ∀ name ∈ optionalNames, .text name ∈ fields.map Prod.fst
  dns : ∀ names, (.text "dns", .array names) ∈ fields → (names.filterMap dnsName?).Pairwise (· < ·)
  links : ∀ links, (.text "links", .array links) ∈ fields → ∀ link ∈ links, ¬SpellsDefaultQueue link

theorem spelled_iff {names links : List CborValue} (dns : values.dns = .array names)
    (linked : values.links = .array links) :
    Spelled (FieldValues.orderedNames.map values.entry) ↔
      (names.filterMap dnsName?).Pairwise (· < ·) ∧ ∀ link ∈ links, ¬SpellsDefaultQueue link := by
  have only {name : String} {value : CborValue}
      (member : (.text name, value) ∈ FieldValues.orderedNames.map values.entry) :
      value = values.get name := by
    obtain ⟨other, -, same⟩ := mem_map.mp member
    cases same
    rfl
  have listed (name : String) (ordered : name ∈ FieldValues.orderedNames) :
      (.text name, values.get name) ∈ FieldValues.orderedNames.map values.entry :=
    mem_map_of_mem ordered
  constructor
  · intro spelled
    exact ⟨spelled.dns names (dns ▸ listed "dns" (by decide)),
      spelled.links links (linked ▸ listed "links" (by decide))⟩
  · rintro ⟨ascending, shorter⟩
    refine ⟨fun name optional => ?_, fun others member => ?_, fun others member => ?_⟩
    · have ordered : name ∈ FieldValues.orderedNames := by revert name; decide
      exact mem_map_of_mem (listed name ordered)
    · cases dns.symm.trans (only member).symm
      exact ascending
    · cases linked.symm.trans (only member).symm
      exact shorter

theorem toCanonicalBytes_of_perm {version : UInt64} {entries shuffled : List (CborValue × CborValue)}
    (canonical : (CborValue.array [.unsigned version, .map entries]).Canonical)
    (perm : shuffled.Perm entries) :
    (CborValue.array [.unsigned version, .map shuffled]).toCanonicalBytes =
      .ok (CborValue.array [.unsigned version, .map entries]).wire := by
  have mapped := CborValue.tryEncode_map_of_perm (CborValue.canonicalItems_iff.mp canonical.2 _ (by simp)) perm
  rw [CborValue.toCanonicalBytes, CborValue.tryEncode, CborValue.encodeItems, CborValue.encodeItems, mapped]
  rfl

end ConfigCanonical

namespace RunConfig

open ConfigCanonical

variable {features : Features} {config : RunConfig features}

/-- The bytes are a document of the current version with these fields. -/
def DocumentOf (input : Bytes) (fields : List (CborValue × CborValue)) : Prop :=
  CborValue.fromCanonicalBytes input = .ok (.array [.unsigned ConfigCanonical.formatVersion, .map fields])

theorem fromCanonicalBytes_ok {input : Bytes} (accepted : fromCanonicalBytes input = .ok config) :
    ∃ fields decoded, DocumentOf input fields ∧ fields.foldlM decodeField {} = .ok decoded ∧
      decoded.build = .ok config := by
  obtain ⟨document, read, rest⟩ := except_bind_eq_ok.mp accepted
  have parsed := except_mapError_eq_ok.mp read
  split at rest
  · split_ifs at rest with current
    subst current
    split at rest
    · obtain ⟨decoded, folded, built⟩ := except_bind_eq_ok.mp rest
      exact ⟨_, decoded, parsed, folded, built⟩
    · cases rest
  · cases rest

def namedDocument : Bytes :=
  (named 3).toCanonicalBytes.toOption.getD []

/-- The ten required fields of the default configuration and no other. -/
def requiredDocument : Bytes :=
  match fields (RunConfig.default ⟨false⟩) with
  | .ok entries =>
    (CborValue.array [.unsigned ConfigCanonical.formatVersion, .map (entries.take 10)]).encoded
  | .error _ => []

end RunConfig

end Ldgr.Sim
