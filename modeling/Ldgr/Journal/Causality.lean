import Ldgr.Format.Canonicality
import Ldgr.Journal.BatchParity
import Ldgr.Journal.History

/-! Journals only grow, and reachable ones hold causal histories, so vector clocks decide causality. -/

namespace Ldgr

open Base Format Relation History List

/-! ## Histories of journals -/

/-- The journal shows exactly `history`, whatever is frozen. -/
structure Journal.Represents (journal : Journal) (history : List Entry) : Prop where
  ids : journal.ids = history.map (·.id)
  get : ∀ id, journal.get id = History.find history id
  heads : ∀ actor, journal.headForActor actor = (lastOf history actor).map (·.id)

namespace Journal

variable {blake3 : Bytes → EntryHash}

theorem represents_new : Journal.new.Represents [] :=
  ⟨rfl, fun _ => rfl, fun _ => rfl⟩

variable {history : List Entry} {entry : Entry} {journal : Journal}

theorem Represents.agrees {journal other : Journal}
    (represents : journal.Represents history) (agrees : other.Agrees journal) :
    other.Represents history :=
  ⟨agrees.ids.trans represents.ids, fun id => (congrFun agrees.get id).trans (represents.get id),
    fun actor => (congrFun agrees.heads actor).trans (represents.heads actor)⟩

theorem Represents.insert (represents : journal.Represents history) (entry : Entry) :
    (journal.insert entry entry.data.actor).Represents (history ++ [entry]) := by
  refine ⟨by simp [represents.ids], fun id => ?_, fun actor => ?_⟩
  · rw [get_insert, find_append_singleton, represents.get]
  · rw [headForActor_insert, lastOf_append_singleton, represents.heads]
    split_ifs <;> rfl

/-- Histories every entry of which was built by an append to what came before it. -/
inductive Grown (blake3 : Bytes → EntryHash) : List Entry → Prop where
  | nil : Grown blake3 []
  | snoc {journal : Journal} {history : List Entry} {entry : Entry} :
      Grown blake3 history → journal.Represents history → entry.Extends blake3 journal →
      Grown blake3 (history ++ [entry])

/-- Histories in which every entry is what an append to the entries before it prepared. -/
inductive Built (blake3 : Bytes → EntryHash) : List Entry → Prop where
  | nil : Built blake3 []
  | snoc {journal : Journal} {history : List Entry} {kind : EntryKind} {actor : ActorId}
      {observed : List EntryHash} {payload : EntryPayload} {entry : Entry} :
      Built blake3 history → journal.Represents history →
      journal.prepareAppend blake3 kind actor observed payload = .ok entry →
      Built blake3 (history ++ [entry])

theorem Built.grown (built : Built blake3 history) : Grown blake3 history := by
  induction built with
  | nil => exact .nil
  | snoc _ represents prepared ih => exact ih.snoc represents (prepareAppend_eq_ok prepared).1

/-- Between the two journals the entries `added` were stored. -/
def Gains (blake3 : Bytes → EntryHash) (added : List Entry) (before after : Journal) : Prop :=
  ∀ history, Built blake3 history → before.Represents history →
    Built blake3 (history ++ added) ∧ after.Represents (history ++ added)

theorem gains_nil (journal : Journal) : Gains blake3 [] journal journal := by
  intro history built represents
  rw [append_nil]
  exact ⟨built, represents⟩

theorem Gains.trans {added more : List Entry} {before between after : Journal}
    (first : Gains blake3 added before between) (second : Gains blake3 more between after) :
    Gains blake3 (added ++ more) before after := by
  intro history built represents
  obtain ⟨builtBetween, representsBetween⟩ := first history built represents
  rw [← append_assoc]
  exact second _ builtBetween representsBetween

theorem Gains.agrees {added : List Entry} {before after other : Journal}
    (gains : Gains blake3 added before after) (agrees : other.Agrees after) :
    Gains blake3 added before other := by
  intro history built represents
  obtain ⟨builtAfter, representsAfter⟩ := gains history built represents
  exact ⟨builtAfter, representsAfter.agrees agrees⟩

theorem gains_insert {kind : EntryKind} {actor : ActorId}
    {observed : List EntryHash} {payload : EntryPayload}
    (prepared : journal.prepareAppend blake3 kind actor observed payload = .ok entry) :
    Gains blake3 [entry] journal (journal.insert entry actor) := by
  intro history built represents
  obtain ⟨_, _, rfl, _⟩ := prepareAppend_eq_ok prepared
  exact ⟨built.snoc represents prepared, represents.insert entry⟩

theorem append_gains {shared : Bool} {kind : EntryKind} {actor : ActorId}
    {observed : List EntryHash} {payload : EntryPayload} {journal after : Journal} {id : EntryHash}
    (appended : append blake3 shared kind actor observed payload journal = (.ok id, after)) :
    ∃ entry, journal.prepareAppend blake3 kind actor observed payload = .ok entry ∧ entry.id = id ∧
      Gains blake3 [entry] journal after := by
  cases prepared : journal.prepareAppend blake3 kind actor observed payload with
  | error fault =>
    rw [append_of_error shared prepared] at appended
    cases appended
  | ok entry =>
    have same := appended.symm.trans (append_of_ok shared prepared)
    cases same
    exact ⟨entry, rfl, rfl, (gains_insert prepared).agrees (freezeIfFull_agrees shared _)⟩

theorem appendEntries_gains {previous : Option EntryHash} {batch : List BatchEntry}
    {journal after : Journal} {recorded : List RecordedEntry}
    (applied : appendEntries blake3 previous batch journal = (.ok recorded, after)) :
    Gains blake3 (recorded.map (·.entry)) journal after := by
  induction batch generalizing previous journal recorded with
  | nil =>
    cases applied
    exact gains_nil _
  | cons spec batch ih =>
    obtain ⟨first, rest, prepared, stored, rfl⟩ := appendEntries_cons_eq_ok applied
    have single := @prepareBatched_eq blake3 journal previous spec
    rw [prepared] at single
    exact (gains_insert single.symm).trans (ih stored)

/-- The journals that successful calls lead to, with every entry they stored on the way. The
number of entries is a machine word. -/
inductive Reachable (blake3 : Bytes → EntryHash) : Journal → List Entry → Prop where
  | new : Reachable blake3 .new []
  | append {journal after : Journal} {history : List Entry} {shared : Bool} {kind : EntryKind}
      {actor : ActorId} {observed : List EntryHash} {payload : EntryPayload} {id : EntryHash}
      {entry : Entry} :
      Reachable blake3 journal history →
      append blake3 shared kind actor observed payload journal = (.ok id, after) →
      after.get id = some entry → after.len < 2 ^ 64 → Reachable blake3 after (history ++ [entry])
  | appendBatch {journal after : Journal} {history : List Entry} {shared : Bool}
      {batch : List BatchEntry} {recorded : List RecordedEntry} :
      Reachable blake3 journal history →
      appendBatchImpl blake3 shared batch journal = (.ok recorded, after) →
      after.len < 2 ^ 64 → Reachable blake3 after (history ++ recorded.map (·.entry))
  | fork {journal : Journal} {history : List Entry} :
      Reachable blake3 journal history → Reachable blake3 journal.fork history

theorem Reachable.built (reachable : Reachable blake3 journal history) :
    Built blake3 history ∧ journal.Represents history := by
  induction reachable with
  | new => exact ⟨.nil, represents_new⟩
  | append _ appended found _ ih =>
    obtain ⟨entry, _, rfl, gains⟩ := append_gains appended
    obtain ⟨built, represents⟩ := gains _ ih.1 ih.2
    rw [represents.get, find_append_singleton, if_pos rfl] at found
    cases found
    exact ⟨built, represents⟩
  | appendBatch _ appended _ ih =>
    obtain ⟨final, applied, agrees⟩ := appendBatchImpl_eq_ok appended
    exact (appendEntries_gains applied).agrees agrees _ ih.1 ih.2
  | fork _ ih => exact ih

theorem Reachable.grown (reachable : Reachable blake3 journal history) :
    Grown blake3 history ∧ journal.Represents history :=
  ⟨reachable.built.1.grown, reachable.built.2⟩

theorem Represents.len_eq (represents : journal.Represents history) : journal.len = history.length := by
  have ids := congrArg length represents.ids
  rw [Journal.ids, length_append, length_map] at ids
  exact ids

theorem Reachable.length_lt (reachable : Reachable blake3 journal history) : history.length < 2 ^ 64 := by
  induction reachable with
  | new => exact Nat.two_pow_pos 64
  | append before appended found fits _ =>
    exact (before.append appended found fits).built.2.len_eq ▸ fits
  | appendBatch before appended fits _ =>
    exact (before.appendBatch appended fits).built.2.len_eq ▸ fits
  | fork _ ih => exact ih

end Journal

/-! ## Distinct ids -/

theorem Entry.header_of_contents {entry : Entry} {bytes : Bytes} (contents : entry.contents = .ok bytes) :
    ∃ rest, skipToPayload bytes =
      .ok ((entry.data.kind.tag, entry.data.actor.id.toUInt64, entry.data.sequence), rest) := by
  unfold Entry.contents at contents
  cases encoded : entry.data.tryCanonicalBytes with
  | error fault =>
    rw [encoded] at contents
    cases contents
  | ok out =>
    rw [encoded] at contents
    cases contents
    obtain ⟨_, payload, _, rfl, bounded⟩ := EntryData.tryCanonicalBytes_eq_ok.mp encoded
    have fits : entry.data.header.length < 2 ^ 64 := by
      rw [length_append] at bounded
      exact lt_of_le_of_lt (le_trans (Nat.le_add_right _ _) bounded) (by decide)
    simp only [append_assoc]
    exact ⟨_, skipToPayload_header fits _⟩

theorem Entry.owner_of_contents {entry other : Entry} {bytes : Bytes}
    (contents : entry.contents = .ok bytes) (otherContents : other.contents = .ok bytes) :
    entry.data.actor = other.data.actor ∧ entry.data.sequence = other.data.sequence := by
  obtain ⟨rest, skipped⟩ := header_of_contents contents
  obtain ⟨otherRest, otherSkipped⟩ := header_of_contents otherContents
  rw [skipped] at otherSkipped
  simp only [Except.ok.injEq, Prod.mk.injEq] at otherSkipped
  obtain ⟨⟨_, actors, sequences⟩, _⟩ := otherSkipped
  refine ⟨?_, sequences⟩
  have ids := congrArg UInt64.toNat actors
  simp only [UInt32.toNat_toUInt64] at ids
  exact congrArg ActorId.mk (UInt32.toNat_inj.mp ids)

/-! ## Numbering -/

namespace History

/-- What the sequences and own clock components of a history count. -/
structure Numbered (history : List Entry) : Prop where
  bounded : ∀ entry ∈ history, ∀ actor, (entry.vectorClock.get actor).toNat ≤ countOf history actor
  sequence : ∀ entry ∈ history, entry.data.sequence.toNat < countOf history entry.data.actor
  last : ∀ actor entry, lastOf history actor = some entry →
    entry.data.sequence.toNat + 1 = countOf history actor ∧
      (entry.vectorClock.get actor).toNat = countOf history actor
  own : ∀ entry ∈ history, (entry.vectorClock.get entry.data.actor).toNat = entry.data.sequence.toNat + 1

theorem numbered_nil : Numbered [] := by
  constructor <;> simp [lastOf]

theorem Causal.find_self {history : List Entry} (causal : Causal history) {entry : Entry}
    (member : entry ∈ history) : find history entry.id = some entry := by
  induction causal with
  | nil => simp at member
  | @snoc history newest causal follows ih =>
    rw [find_append_singleton]
    obtain old | new := mem_append.mp member
    · rw [if_neg (follows.fresh entry old), ih old]
    · rw [mem_singleton.mp new, if_pos rfl]

theorem Numbered.snoc {history : List Entry} {entry : Entry} (numbered : Numbered history)
    (sequence : entry.data.sequence.toNat = countOf history entry.data.actor)
    (clock : ∀ actor, (entry.vectorClock.get actor).toNat ≤ countOf (history ++ [entry]) actor)
    (own : (entry.vectorClock.get entry.data.actor).toNat = entry.data.sequence.toNat + 1) :
    Numbered (history ++ [entry]) := by
  have counts := countOf_append_singleton history entry
  have ownCount : countOf (history ++ [entry]) entry.data.actor = entry.data.sequence.toNat + 1 := by
    rw [counts, if_pos rfl, sequence]
  constructor
  · intro other member actor
    obtain old | new := mem_append.mp member
    · exact (numbered.bounded other old actor).trans (counts actor ▸ Nat.le_add_right _ _)
    · exact mem_singleton.mp new ▸ clock actor
  · intro other member
    obtain old | new := mem_append.mp member
    · exact (numbered.sequence other old).trans_le (counts _ ▸ Nat.le_add_right _ _)
    · rw [mem_singleton.mp new, ownCount]
      exact Nat.lt_succ_self _
  · intro actor other last
    rw [lastOf_append_singleton] at last
    split_ifs at last with same
    · obtain rfl := Option.some.inj last
      rw [same]
      exact ⟨ownCount.symm, own.trans ownCount.symm⟩
    · rw [counts, if_neg (Ne.symm same)]
      exact numbered.last actor other last
  · intro other member
    obtain old | new := mem_append.mp member
    · exact numbered.own other old
    · exact mem_singleton.mp new ▸ own

end History

namespace Journal

variable {blake3 : Bytes → EntryHash} {journal : Journal} {history : List Entry} {entry : Entry}

/-- The strings a history hashes. -/
def hashed (history : List Entry) : Set Bytes :=
  {bytes | ∃ entry ∈ history, entry.contents = .ok bytes}

theorem Grown.contents (grown : Grown blake3 history) (member : entry ∈ history) :
    ∃ bytes, entry.contents = .ok bytes ∧ entry.id = blake3 bytes := by
  induction grown with
  | nil => simp at member
  | snoc _ _ extended ih =>
    obtain old | new := mem_append.mp member
    · exact ih old
    · exact mem_singleton.mp new ▸ extended.contents

section Step

variable (represents : journal.Represents history) (extended : entry.Extends blake3 journal)
include represents extended

theorem extended_chained (last : Entry) (found : lastOf history entry.data.actor = some last) :
    last.id ∈ entry.data.parents := by
  refine (extended.next last.id ?_).1
  rw [represents.heads, found]
  rfl

theorem extended_parents (id : EntryHash) (listed : id ∈ entry.data.parents) :
    ∃ parent ∈ history, parent.id = id := by
  obtain ⟨joined, joins, _⟩ := extended.clock
  obtain ⟨parent, found, _⟩ := joins.above id listed
  rw [represents.get] at found
  obtain ⟨member, same⟩ := find_eq_some found
  exact ⟨parent, member, same⟩

theorem extended_joined (causal : History.Causal history) : ∃ joined : VectorClock,
    entry.vectorClock = joined.incremented entry.data.actor ∧
    ∀ actor, IsLUB (Set.image (fun parent : Entry => (parent.vectorClock.get actor).toNat)
      {parent | parent ∈ history ∧ parent.id ∈ entry.data.parents}) (joined.get actor).toNat := by
  obtain ⟨joined, joins, incremented⟩ := extended.clock
  refine ⟨joined, incremented, fun actor => ⟨?_, ?_⟩⟩
  · intro value ⟨parent, ⟨member, listed⟩, same⟩
    obtain ⟨found, get, above⟩ := joins.above parent.id listed
    rw [represents.get, causal.find_self member] at get
    cases get
    exact same ▸ UInt64.le_iff_toNat_le.mp (above actor)
  · intro bound upper
    obtain zero | ⟨id, listed, parent, get, same⟩ := joins.attained actor
    · rw [zero]
      exact Nat.zero_le _
    · rw [represents.get] at get
      obtain ⟨member, rfl⟩ := find_eq_some get
      exact same ▸ upper ⟨parent, ⟨member, listed⟩, rfl⟩

theorem extended_sequence (causal : History.Causal history) (numbered : History.Numbered history)
    (small : history.length < 2 ^ 64) :
    entry.data.sequence.toNat = countOf history entry.data.actor := by
  cases found : lastOf history entry.data.actor with
  | none =>
    have first : entry.data.sequence = 0 := by
      apply extended.first
      rw [represents.heads, found]
      rfl
    rw [first, lastOf_eq_none found]
    rfl
  | some last =>
    obtain ⟨_, previous, get, next⟩ := extended.next last.id (by
      rw [represents.heads, found]
      rfl)
    rw [represents.get, causal.find_self (lastOf_eq_some found).1] at get
    cases get
    have count := (numbered.last _ _ found).1
    have bounded := countOf_le_length history entry.data.actor
    rw [next, toNat_saturatingAdd]
    have one : (1 : UInt64).toNat = 1 := rfl
    omega

theorem extended_clock (causal : History.Causal history) (numbered : History.Numbered history)
    (small : history.length + 1 < 2 ^ 64) : ∃ joined : VectorClock,
    (∀ actor, IsLUB (Set.image (fun parent : Entry => (parent.vectorClock.get actor).toNat)
      {parent | parent ∈ history ∧ parent.id ∈ entry.data.parents}) (joined.get actor).toNat) ∧
    (∀ actor, (entry.vectorClock.get actor).toNat =
      (joined.get actor).toNat + if entry.data.actor = actor then 1 else 0) ∧
    (∀ actor, (joined.get actor).toNat ≤ countOf history actor) ∧
    (joined.get entry.data.actor).toNat = countOf history entry.data.actor := by
  obtain ⟨joined, incremented, least⟩ := extended_joined represents extended causal
  have below (actor : ActorId) : (joined.get actor).toNat ≤ countOf history actor :=
    (least actor).2 fun value ⟨parent, ⟨member, _⟩, same⟩ =>
      same ▸ numbered.bounded parent member actor
  refine ⟨joined, least, fun actor => ?_, below, le_antisymm (below _) ?_⟩
  · rw [incremented, VectorClock.get_incremented]
    split_ifs with own other other
    · rw [toNat_saturatingAdd, own]
      have bounded := countOf_le_length history entry.data.actor
      have atOwn := below entry.data.actor
      have one : (1 : UInt64).toNat = 1 := rfl
      omega
    · exact absurd own.symm other
    · exact absurd other.symm own
    · rfl
  · cases found : lastOf history entry.data.actor with
    | none =>
      rw [lastOf_eq_none found]
      exact Nat.zero_le _
    | some last =>
      have member := (lastOf_eq_some found).1
      have listed := extended_chained represents extended last found
      rw [← (numbered.last _ _ found).2]
      exact (least _).1 ⟨last, ⟨member, listed⟩, rfl⟩

end Step

theorem Grown.causal (grown : Grown blake3 history)
    (collisionFree : Set.InjOn blake3 (hashed history)) (small : history.length < 2 ^ 64) :
    History.Causal history ∧ History.Numbered history := by
  induction grown with
  | nil => exact ⟨.nil, numbered_nil⟩
  | @snoc journal history entry grown represents extended ih =>
    rw [length_append, length_singleton] at small
    have older : hashed history ⊆ hashed (history ++ [entry]) :=
      fun bytes ⟨known, member, contents⟩ => ⟨known, mem_append_left _ member, contents⟩
    obtain ⟨causal, numbered⟩ := ih (collisionFree.mono older) (by omega)
    have sequence := extended_sequence represents extended causal numbered (by omega)
    obtain ⟨joined, least, clock, below, own⟩ :=
      extended_clock represents extended causal numbered small
    -- A repeated id would repeat the contents, and with them the sequence of an earlier entry.
    have fresh : ∀ earlier ∈ history, earlier.id ≠ entry.id := by
      intro earlier member same
      obtain ⟨bytes, contents, id⟩ := grown.contents member
      obtain ⟨newBytes, newContents, newId⟩ := extended.contents
      have equal : bytes = newBytes := collisionFree (older ⟨earlier, member, contents⟩)
        ⟨entry, by simp, newContents⟩ (id ▸ newId ▸ same)
      obtain ⟨actors, sequences⟩ := Entry.owner_of_contents contents (equal ▸ newContents)
      have taken := numbered.sequence earlier member
      rw [sequences, actors, sequence] at taken
      exact lt_irrefl _ taken
    have follows : History.Follows history entry :=
      ⟨fresh, extended_parents represents extended, extended_chained represents extended,
        fun actor => ⟨_, least actor, clock actor⟩⟩
    refine ⟨causal.snoc follows, numbered.snoc sequence (fun actor => ?_) ?_⟩
    · rw [clock, countOf_append_singleton]
      exact Nat.add_le_add_right (below actor) _
    · rw [clock, if_pos rfl, own, sequence]

/-! ## Clocks decide causality -/

theorem Represents.entries (represents : journal.Represents history)
    (causal : History.Causal history) : journal.entries = history := by
  have found : ∀ entry ∈ history, journal.get entry.id = some entry := by
    intro entry member
    rw [represents.get, causal.find_self member]
  rw [Journal.entries, represents.ids, filterMap_map]
  exact (filterMap_congr found).trans filterMap_some

theorem causal_iff_clock (causal : History.Causal history) {first second : Entry}
    (firstMember : first ∈ history) (secondMember : second ∈ history) :
    ReflTransGen (History.Parent history) first second ↔
      first.vectorClock.happensBeforeOrEqual second.vectorClock = true := by
  have order := causal.stamps.past_iff firstMember secondMember
  simp only [← UInt64.le_iff_toNat_le] at order
  exact order.trans VectorClock.happensBeforeOrEqual_iff.symm

/-- A direct parent link between two entries of the journal. -/
def ParentLink (journal : Journal) (parent entry : Entry) : Prop :=
  parent ∈ journal.entries ∧ entry ∈ journal.entries ∧ parent.id ∈ entry.data.parents

/-- The reflexive causal history of an entry: itself and what its parent links lead to. -/
def CausalHistory (journal : Journal) (entry : Entry) : Set Entry :=
  {earlier | earlier = entry ∨ TransGen journal.ParentLink earlier entry}

/-- In every reachable journal without a hash collision, one clock is below another exactly when
its entry is in the other's causal history, each component counts the entries of its actor there,
and the own component is the number of the entry. -/
theorem vectorClock_causality {first second : Entry} (reachable : Reachable blake3 journal history)
    (collisionFree : Set.InjOn blake3 (hashed history))
    (firstMember : first ∈ journal.entries) (secondMember : second ∈ journal.entries) :
    (first.vectorClock.happensBeforeOrEqual second.vectorClock = true ↔
      first = second ∨ TransGen journal.ParentLink first second) ∧
    (∀ actor, (first.vectorClock.get actor).toNat =
      {earlier ∈ journal.CausalHistory first | earlier.data.actor = actor}.ncard) ∧
    first.data.sequence.toNat + 1 = (first.vectorClock.get first.data.actor).toNat := by
  obtain ⟨grown, represents⟩ := reachable.grown
  obtain ⟨causal, numbered⟩ := grown.causal collisionFree reachable.length_lt
  have entries := represents.entries causal
  have links : journal.ParentLink = History.Parent history := by
    funext parent entry
    simp only [ParentLink, History.Parent, entries]
  have past (earlier later : Entry) : causal.log.Past earlier later ↔
      earlier = later ∨ TransGen journal.ParentLink earlier later := by
    rw [links, CausalLog.Past, reflTransGen_iff_eq_or_transGen, eq_comm (a := earlier)]
    rfl
  rw [entries] at firstMember secondMember
  refine ⟨?_, fun actor => ?_, (numbered.own first firstMember).symm⟩
  · rw [← past]
    exact (causal_iff_clock causal firstMember secondMember).symm
  · rw [causal.stamps.eq_count firstMember actor, CausalLog.count, CausalLog.history]
    simp only [past]
    rfl

theorem Grown.collisionFree (grown : Grown blake3 history)
    (distinct : (history.map (·.id)).Nodup) : Set.InjOn blake3 (hashed history) := by
  intro bytes ⟨entry, member, contents⟩ otherBytes ⟨other, otherMember, otherContents⟩ same
  have address (known : Entry) (knownMember : known ∈ history) (content : Bytes)
      (holds : known.contents = .ok content) : known.id = blake3 content := by
    obtain ⟨hashed, stored, id⟩ := grown.contents knownMember
    rw [holds] at stored
    cases stored
    exact id
  have ids : entry.id = other.id := by
    rw [address entry member bytes contents, same, address other otherMember otherBytes otherContents]
  obtain rfl := inj_on_of_nodup_map distinct member otherMember ids
  exact Except.ok.inj (contents.symm.trans otherContents)

def spawning (actor : ActorId) (parents : List EntryHash) (vectorClock : VectorClock) : Entry :=
  let data : EntryData :=
    { formatVersion, kind := .spawn, actor, parents, vectorClock := [], sequence := 0
      payload := .spawn ⟨9⟩ }
  { id := checksum (data.tryCanonicalBytes.toOption.getD [] ++ vectorClock.encode)
    data
    vectorClock }

def sender : Entry :=
  spawning ⟨1⟩ [] (VectorClock.new.incremented ⟨1⟩)

def receiver : Entry :=
  spawning ⟨2⟩ [sender.id] (sender.vectorClock.incremented ⟨2⟩)

def exchange : Journal :=
  (Journal.new.insert sender ⟨1⟩).insert receiver ⟨2⟩

set_option maxRecDepth 20000 in
theorem exchange_reachable : Reachable checksum exchange [sender, receiver] := by
  have sent : append checksum false .spawn ⟨1⟩ [] (.spawn ⟨9⟩) Journal.new =
      (.ok sender.id, Journal.new.insert sender ⟨1⟩) := rfl
  have received : append checksum false .spawn ⟨2⟩ [sender.id] (.spawn ⟨9⟩)
      (Journal.new.insert sender ⟨1⟩) = (.ok receiver.id, exchange) := rfl
  have known : (Journal.new.insert sender ⟨1⟩).get sender.id = some sender := by
    rw [get_insert, if_pos rfl]
  have stored : exchange.get receiver.id = some receiver := by
    rw [exchange, get_insert, if_pos rfl]
  exact (Reachable.new.append sent known (by decide)).append received stored (by decide)

theorem exchange_causality : (sender.vectorClock.happensBeforeOrEqual receiver.vectorClock = true ↔
      sender = receiver ∨ TransGen exchange.ParentLink sender receiver) ∧
    (∀ actor, (sender.vectorClock.get actor).toNat =
      {earlier ∈ exchange.CausalHistory sender | earlier.data.actor = actor}.ncard) ∧
    sender.data.sequence.toNat + 1 = (sender.vectorClock.get sender.data.actor).toNat := by
  have distinct : sender.id ≠ receiver.id := by decide +kernel
  have senderFound : exchange.get sender.id = some sender := by
    rw [exchange, get_insert, if_neg distinct, get_insert, if_pos rfl]
  have receiverFound : exchange.get receiver.id = some receiver := by
    rw [exchange, get_insert, if_pos rfl]
  refine vectorClock_causality exchange_reachable
    (exchange_reachable.grown.1.collisionFree (by simpa using distinct)) ?_ ?_
  · exact mem_filterMap.mpr ⟨sender.id, by simp [exchange], senderFound⟩
  · exact mem_filterMap.mpr ⟨receiver.id, by simp [exchange], receiverFound⟩

theorem Built.prepared (built : Built blake3 history) {before after : List Entry}
    (split : history = before ++ entry :: after) :
    ∃ (journal : Journal) (kind : EntryKind) (actor : ActorId) (observed : List EntryHash)
      (payload : EntryPayload), Built blake3 before ∧ journal.Represents before ∧
      journal.prepareAppend blake3 kind actor observed payload = .ok entry := by
  induction built generalizing after with
  | nil => simp at split
  | @snoc journal history kind actor observed payload newest built represents prepared ih =>
    obtain rfl | ⟨middle, last, rfl⟩ := after.eq_nil_or_concat
    · obtain ⟨rfl, same⟩ := append_inj' split rfl
      cases same
      exact ⟨journal, kind, actor, observed, payload, built, represents, prepared⟩
    · rw [concat_eq_append, ← cons_append, ← append_assoc] at split
      obtain ⟨rfl, _⟩ := append_inj' split rfl
      exact ih rfl

/-- Entries were stored between the two journals, and nothing else happened to them. -/
def Writes (blake3 : Bytes → EntryHash) (before after : Journal) : Prop :=
  ∃ added, Gains blake3 added before after

instance : Std.Refl (Writes blake3) where
  refl journal := ⟨[], gains_nil journal⟩

instance : IsTrans Journal (Writes blake3) where
  trans _ _ _ := fun ⟨added, first⟩ ⟨more, second⟩ => ⟨added ++ more, first.trans second⟩

theorem append_writes (shared : Bool) (kind : EntryKind) (actor : ActorId)
    (observed : List EntryHash) (payload : EntryPayload) :
    (append blake3 shared kind actor observed payload).Relates (Writes blake3) := by
  intro journal
  cases result : append blake3 shared kind actor observed payload journal with
  | mk outcome after =>
    cases outcome with
    | ok id =>
      obtain ⟨entry, _, _, gains⟩ := append_gains result
      exact ⟨[entry], gains⟩
    | error fault =>
      cases prepared : journal.prepareAppend blake3 kind actor observed payload with
      | ok entry =>
        rw [append_of_ok shared prepared] at result
        cases result
      | error refusal =>
        rw [append_of_error shared prepared] at result
        cases result
        exact Std.Refl.refl journal

theorem appendBatch_writes (shared : Bool) (batch : List BatchEntry) :
    (appendBatch blake3 shared batch).Relates (Writes blake3) := by
  refine Action.Relates.bind (fun journal => ?_) fun _ => Action.relates_pure _
  cases result : appendEntries blake3 none batch journal with
  | mk outcome after =>
    cases outcome with
    | ok recorded =>
      obtain ⟨frozen, stored, agrees⟩ := appendBatchImpl_of_ok shared result
      rw [stored]
      exact ⟨_, (appendEntries_gains result).agrees agrees⟩
    | error fault =>
      obtain ⟨accepted, _, _, recorded, _, applied⟩ := appendEntries_error result
      rw [appendBatchImpl_of_error shared result]
      exact ⟨_, appendEntries_gains applied⟩

/-! ## Reached journals -/

/-- The journals any calls lead to, accepted or refused; a refused batch leaves what it had stored. -/
inductive Reached (blake3 : Bytes → EntryHash) : Journal → Prop where
  | new : Reached blake3 .new
  | append {journal : Journal} (shared : Bool) (kind : EntryKind) (actor : ActorId)
      (observed : List EntryHash) (payload : EntryPayload) :
      Reached blake3 journal →
      Reached blake3 (append blake3 shared kind actor observed payload journal).2
  | appendBatch {journal : Journal} (shared : Bool) (batch : List BatchEntry) :
      Reached blake3 journal → Reached blake3 (appendBatch blake3 shared batch journal).2
  | fork {journal : Journal} : Reached blake3 journal → Reached blake3 journal.fork

theorem Reachable.reached (reachable : Reachable blake3 journal history) : Reached blake3 journal := by
  induction reachable with
  | new => exact .new
  | @append _ after _ shared kind actor observed payload _ _ _ appended _ _ ih =>
    have reached := ih.append shared kind actor observed payload
    rw [appended] at reached
    exact reached
  | @appendBatch _ after _ shared batch recorded _ appended _ ih =>
    have reached := ih.appendBatch shared batch
    have stored : Journal.appendBatch blake3 shared batch _ = (.ok (recorded.map (·.entry.id)), after) :=
      Action.bind_of_ok appended
    rw [stored] at reached
    exact reached
  | fork _ ih => exact ih.fork

theorem Reached.writes (reached : Reached blake3 journal) : Writes blake3 .new journal := by
  induction reached with
  | new => exact Std.Refl.refl _
  | append shared kind actor observed payload _ ih =>
    exact IsTrans.trans _ _ _ ih (append_writes shared kind actor observed payload _)
  | appendBatch shared batch _ ih =>
    exact IsTrans.trans _ _ _ ih (appendBatch_writes shared batch _)
  | fork _ ih => exact ih

theorem Reached.built (reached : Reached blake3 journal) :
    ∃ history, Built blake3 history ∧ journal.Represents history := by
  obtain ⟨added, gains⟩ := reached.writes
  exact ⟨added, gains [] .nil represents_new⟩

/-! ## Distinct ids -/

theorem find_of_nodup (distinct : (history.map (·.id)).Nodup)
    (member : entry ∈ history) : History.find history entry.id = some entry := by
  rw [History.find]
  cases search : history.reverse.find? (·.id = entry.id) with
  | none =>
    have absent := find?_eq_none.mp search entry (mem_reverse.mpr member)
    simp at absent
  | some other =>
    have same : other.id = entry.id := by simpa using find?_some search
    have known : other ∈ history := mem_reverse.mp (mem_of_find?_eq_some search)
    exact congrArg some (inj_on_of_nodup_map distinct known member same)

theorem Represents.get_of_nodup (represents : journal.Represents history) (distinct : journal.ids.Nodup)
    (member : entry ∈ history) : journal.get entry.id = some entry := by
  rw [represents.get, find_of_nodup (represents.ids ▸ distinct) member]

theorem Represents.entries_of_nodup (represents : journal.Represents history) (distinct : journal.ids.Nodup) :
    journal.entries = history := by
  rw [Journal.entries, represents.ids, filterMap_map]
  exact (filterMap_congr fun _ => represents.get_of_nodup distinct).trans filterMap_some

end Journal

end Ldgr
