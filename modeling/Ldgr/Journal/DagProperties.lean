import Ldgr.Journal.ClockProperties
import Ldgr.Journal.Dag

/-! What journals show of themselves, and what an appended entry is made of. -/

namespace Ldgr

open Base Format List

namespace Journal

/-! ## Observations -/

/-- Two journals that no lookup can tell apart; they may differ in what is frozen. -/
structure Agrees (journal other : Journal) : Prop where
  ids : journal.ids = other.ids
  get : journal.get = other.get
  heads : journal.headForActor = other.headForActor

theorem Agrees.refl (journal : Journal) : journal.Agrees journal :=
  ⟨rfl, rfl, rfl⟩

variable {journal other : Journal}

theorem Agrees.symm (agrees : journal.Agrees other) : other.Agrees journal :=
  ⟨agrees.ids.symm, agrees.get.symm, agrees.heads.symm⟩

theorem Agrees.trans {first second third : Journal} (agrees : first.Agrees second)
    (next : second.Agrees third) : first.Agrees third :=
  ⟨agrees.ids.trans next.ids, agrees.get.trans next.get, agrees.heads.trans next.heads⟩

theorem Agrees.entries (agrees : journal.Agrees other) : journal.entries = other.entries := by
  rw [Journal.entries, Journal.entries, agrees.ids, agrees.get]

theorem Agrees.rootHash (agrees : journal.Agrees other)
    (blake3 : Bytes → EntryHash) : journal.rootHash blake3 = other.rootHash blake3 := by
  rw [Journal.rootHash, Journal.rootHash, agrees.ids]

theorem freezeOverlay_agrees (shared : Bool) (journal : Journal) :
    (journal.freezeOverlay shared).Agrees journal := by
  unfold freezeOverlay
  split_ifs with held
  · exact .refl journal
  · refine ⟨by simp [ids], ?_, rfl⟩
    funext id
    simp only [get, AList.lookup_empty, Option.none_or]
    by_cases present : id ∈ journal.overlay
    · obtain ⟨entry, found⟩ := Option.isSome_iff_exists.mp (AList.lookup_isSome.mpr present)
      rw [AList.lookup_union_left present, found, Option.some_or]
    · rw [AList.lookup_union_right present, AList.lookup_eq_none.mpr present, Option.none_or]

theorem freezeIfFull_agrees (shared : Bool) (journal : Journal) :
    (journal.freezeIfFull shared).Agrees journal := by
  unfold freezeIfFull
  split_ifs
  · exact freezeOverlay_agrees shared journal
  · exact .refl journal

/-! ## Insertion -/

@[simp] theorem ids_insert (journal : Journal) (entry : Entry) (actor : ActorId) :
    (journal.insert entry actor).ids = journal.ids ++ [entry.id] :=
  (append_assoc _ _ _).symm

theorem get_insert (journal : Journal) (entry : Entry) (actor : ActorId) (id : EntryHash) :
    (journal.insert entry actor).get id = if id = entry.id then some entry else journal.get id := by
  simp only [get, insert]
  split_ifs with same
  · rw [same, AList.lookup_insert, Option.some_or]
  · rw [AList.lookup_insert_ne same]

theorem headForActor_insert (journal : Journal) (entry : Entry) (actor other : ActorId) :
    (journal.insert entry actor).headForActor other =
      if other = actor then some entry.id else journal.headForActor other := by
  simp only [headForActor, insert]
  split_ifs with same
  · rw [same, AList.lookup_insert]
  · rw [AList.lookup_insert_ne same]

theorem Agrees.insert (agrees : journal.Agrees other) (entry : Entry)
    (actor : ActorId) : (journal.insert entry actor).Agrees (other.insert entry actor) := by
  refine ⟨by simp [agrees.ids], funext fun id => ?_, funext fun reader => ?_⟩
  · rw [get_insert, get_insert, agrees.get]
  · rw [headForActor_insert, headForActor_insert, agrees.heads]

/-! ## Parents -/

theorem pushParents_append (parents observed more : List EntryHash) : pushParents parents (observed ++ more) =
      (do let pushed ← pushParents parents observed; pushParents pushed more) := by
  induction observed generalizing parents with
  | nil => rfl
  | cons parent observed ih =>
    rw [cons_append, pushParents, pushParents]
    split_ifs
    · exact ih parents
    · rfl
    · exact ih _

theorem assembleParents_chain (head : Option EntryHash) (observed : List EntryHash) (chain : Option EntryHash) :
    assembleParents head observed chain = assembleParents head (observed ++ chain.toList) none := by
  rw [assembleParents, assembleParents, pushParents_append]
  exact (bind_pure _).symm

theorem pushParents_ok {parents observed pushed : List EntryHash}
    (accepted : pushParents parents observed = .ok pushed) :
    parents <+: pushed ∧ pushed.length ≤ max parents.length maxParentsPerEntry := by
  induction observed generalizing parents with
  | nil =>
    cases accepted
    exact ⟨prefix_rfl, le_max_left _ _⟩
  | cons parent observed ih =>
    rw [pushParents] at accepted
    split_ifs at accepted with seen full
    · exact ih accepted
    · obtain ⟨extended, bounded⟩ := ih accepted
      refine ⟨(prefix_append _ _).trans extended, bounded.trans ?_⟩
      rw [length_append, length_singleton]
      omega

theorem assembleParents_ok {head : Option EntryHash} {observed parents : List EntryHash}
    {chain : Option EntryHash} (accepted : assembleParents head observed chain = .ok parents) :
    head.toList <+: parents ∧ parents.length ≤ maxParentsPerEntry := by
  rw [assembleParents_chain] at accepted
  obtain ⟨pushed, first, second⟩ := except_bind_eq_ok.mp accepted
  cases second
  obtain ⟨extended, bounded⟩ := pushParents_ok first
  refine ⟨extended, bounded.trans (max_le ?_ le_rfl)⟩
  cases head with
  | none => exact Nat.zero_le _
  | some id => exact Nat.succ_le_succ (Nat.zero_le _)

/-- Pushing only the parents that were new does the same. -/
theorem pushParents_new {parents observed pushed : List EntryHash}
    (accepted : pushParents parents observed = .ok pushed) :
    ∃ added, pushed = parents ++ added ∧ pushParents parents added = .ok pushed := by
  induction observed generalizing parents with
  | nil =>
    cases accepted
    exact ⟨[], (append_nil _).symm, rfl⟩
  | cons parent observed ih =>
    rw [pushParents] at accepted
    split_ifs at accepted with seen full
    · exact ih accepted
    · obtain ⟨added, rfl, again⟩ := ih accepted
      refine ⟨parent :: added, append_assoc _ _ _, ?_⟩
      rw [pushParents, if_neg seen, if_neg full]
      exact again

theorem assembleParents_again {head : Option EntryHash} {observed parents : List EntryHash}
    (accepted : assembleParents head observed none = .ok parents) :
    assembleParents head parents none = .ok parents := by
  obtain ⟨pushed, first, second⟩ := except_bind_eq_ok.mp accepted
  cases second
  obtain ⟨added, rfl, again⟩ := pushParents_new first
  have repeated : pushParents head.toList (head.toList ++ added) = pushParents head.toList added := by
    cases head with
    | none => rfl
    | some id => simp [pushParents]
  rw [assembleParents, repeated, again]
  rfl

theorem getParent_eq_ok {journal : Journal} {id : EntryHash} {entry : Entry} :
    journal.getParent id = .ok entry ↔ journal.get id = some entry := by
  unfold getParent
  cases journal.get id <;> simp

/-! ## Clocks of appended entries -/

/-- `clock` is the least one above the clocks of all `parents`, each of which is stored. -/
structure Joins (journal : Journal) (parents : List EntryHash) (clock : VectorClock) : Prop where
  above : ∀ id ∈ parents, ∃ parent, journal.get id = some parent ∧
    ∀ actor, parent.vectorClock.get actor ≤ clock.get actor
  attained : ∀ actor, clock.get actor = 0 ∨ ∃ id ∈ parents, ∃ parent,
    journal.get id = some parent ∧ parent.vectorClock.get actor = clock.get actor

private theorem le_merge_left (left right : VectorClock) (actor : ActorId) :
    left.get actor ≤ (left.merge right).get actor := by
  rw [VectorClock.get_merge, UInt64.le_iff_toNat_le, UInt64.toNat_max]
  exact le_max_left _ _

private theorem le_merge_right (left right : VectorClock) (actor : ActorId) :
    right.get actor ≤ (left.merge right).get actor := by
  rw [VectorClock.get_merge, UInt64.le_iff_toNat_le, UInt64.toNat_max]
  exact le_max_right _ _

private theorem merge_eq_or (left right : VectorClock) (actor : ActorId) :
    (left.merge right).get actor = left.get actor ∨ (left.merge right).get actor = right.get actor := by
  simp only [VectorClock.get_merge, ← UInt64.toNat_inj, UInt64.toNat_max]
  exact max_choice _ _

private theorem foldlM_joins {journal : Journal} {parents : List EntryHash}
    {start clock : VectorClock}
    (merged : parents.foldlM (fun clock parent =>
      (journal.getParent parent).map (clock.merge ·.vectorClock)) start = .ok clock) :
    (∀ actor, start.get actor ≤ clock.get actor) ∧
    (∀ id ∈ parents, ∃ parent, journal.get id = some parent ∧
      ∀ actor, parent.vectorClock.get actor ≤ clock.get actor) ∧
    ∀ actor, clock.get actor = start.get actor ∨ ∃ id ∈ parents, ∃ parent,
      journal.get id = some parent ∧ parent.vectorClock.get actor = clock.get actor := by
  induction parents generalizing start with
  | nil =>
    cases merged
    simp
  | cons id parents ih =>
    rw [foldlM_cons] at merged
    obtain ⟨next, stepped, rest⟩ := except_bind_eq_ok.mp merged
    cases looked : journal.getParent id with
    | error fault => simp [looked, Except.map] at stepped
    | ok parent =>
      have found := getParent_eq_ok.mp looked
      obtain rfl : start.merge parent.vectorClock = next := by
        simpa [looked, Except.map] using stepped
      obtain ⟨above, members, attained⟩ := ih rest
      refine ⟨fun actor => UInt64.le_trans (le_merge_left _ _ actor) (above actor), ?_, ?_⟩
      · intro other member
        obtain rfl | later := mem_cons.mp member
        · exact ⟨parent, found, fun actor => UInt64.le_trans (le_merge_right _ _ actor) (above actor)⟩
        · exact members other later
      · intro actor
        obtain same | ⟨other, member, later⟩ := attained actor
        · obtain left | right := merge_eq_or start parent.vectorClock actor
          · exact .inl (same.trans left)
          · exact .inr ⟨id, mem_cons_self, parent, found, (same.trans right).symm⟩
        · exact .inr ⟨other, mem_cons_of_mem _ member, later⟩

theorem mergeParents_joins {journal : Journal} {parents : List EntryHash} {clock : VectorClock}
    (merged : journal.mergeParents parents = .ok clock) : journal.Joins parents clock := by
  obtain ⟨_, above, attained⟩ := foldlM_joins merged
  exact ⟨above, attained⟩

/-! ## Appended entries -/

end Journal

def Entry.contents (entry : Entry) : Except CborError Bytes :=
  entry.data.tryCanonicalBytes.map (· ++ entry.vectorClock.encode)

/-- What `append` stores for an actor of `journal`, in terms of what the journal shows. -/
structure Entry.Extends (blake3 : Bytes → EntryHash) (journal : Journal) (entry : Entry) : Prop where
  version : entry.data.formatVersion = formatVersion
  vectorClock : entry.data.vectorClock = []
  parentCount : entry.data.parents.length ≤ maxParentsPerEntry
  contents : ∃ bytes, entry.contents = .ok bytes ∧ entry.id = blake3 bytes
  next : ∀ id, journal.headForActor entry.data.actor = some id →
    id ∈ entry.data.parents ∧ ∃ previous, journal.get id = some previous ∧
      entry.data.sequence = saturatingAdd previous.data.sequence 1
  first : journal.headForActor entry.data.actor = none → entry.data.sequence = 0
  clock : ∃ joined, journal.Joins entry.data.parents joined ∧
    entry.vectorClock = joined.incremented entry.data.actor

namespace Journal

variable {blake3 : Bytes → EntryHash}

variable {data : EntryData} {clock : VectorClock} {entry : Entry} {journal : Journal}
  {head : Option EntryHash} {headEntry : Option Entry} {kind : EntryKind} {actor : ActorId}
  {observed : List EntryHash} {payload : EntryPayload}

theorem recordedEntry_new_eq_ok {recorded : RecordedEntry} :
    RecordedEntry.new blake3 data clock = .ok recorded ↔ ∃ encoded, data.tryCanonicalBytes = .ok encoded ∧
        recorded = { entry := { id := blake3 (encoded ++ clock.encode), data, vectorClock := clock }
                     dataLen := encoded.length
                     scratch := encoded ++ clock.encode } := by
  unfold RecordedEntry.new
  cases data.tryCanonicalBytes with
  | error fault => simp
  | ok encoded => simp [eq_comm]

theorem entry_new_eq_ok : Entry.new blake3 data clock = .ok entry ↔
      ∃ encoded, data.tryCanonicalBytes = .ok encoded ∧
        entry = { id := blake3 (encoded ++ clock.encode), data, vectorClock := clock } := by
  unfold Entry.new RecordedEntry.new
  cases data.tryCanonicalBytes with
  | error fault => simp [Except.map]
  | ok encoded => simp [Except.map, eq_comm]

private theorem addressed_by_contents (blake3 : Bytes → EntryHash)
    {encoded : Bytes} (encodes : data.tryCanonicalBytes = .ok encoded) (clock : VectorClock) :
    ∃ bytes, Entry.contents ⟨blake3 (encoded ++ clock.encode), data, clock⟩ = .ok bytes ∧
      blake3 (encoded ++ clock.encode) = blake3 bytes := by
  refine ⟨encoded ++ clock.encode, ?_, rfl⟩
  rw [Entry.contents, encodes]
  rfl

private theorem headEntry_cases (found : head.mapM journal.getParent = .ok headEntry) :
    head = none ∧ headEntry = none ∨
      ∃ id entry, head = some id ∧ headEntry = some entry ∧ journal.get id = some entry := by
  cases head with
  | none =>
    cases found
    exact .inl ⟨rfl, rfl⟩
  | some id =>
    cases looked : journal.getParent id with
    | error fault =>
      rw [Option.mapM_some, looked] at found
      cases found
    | ok entry =>
      rw [Option.mapM_some, looked] at found
      cases found
      exact .inr ⟨id, entry, rfl, rfl, getParent_eq_ok.mp looked⟩

private theorem headEntry_parent {parents : List EntryHash}
    (found : head.mapM journal.getParent = .ok headEntry) (extended : head.toList <+: parents) :
    ∀ entry, headEntry = some entry → ∃ id, [id] <+: parents ∧ journal.get id = some entry := by
  intro entry same
  obtain ⟨_, rfl⟩ | ⟨id, previous, rfl, rfl, known⟩ := headEntry_cases found
  · cases same
  · cases same
    exact ⟨id, extended, known⟩

theorem parentClock_eq {parents : List EntryHash}
    (head : ∀ entry, headEntry = some entry → ∃ id, [id] <+: parents ∧ journal.get id = some entry)
    (joined : journal.parentClock parents headEntry = .ok clock) :
    journal.mergeParents parents = .ok clock := by
  have single (parent : EntryHash) : journal.mergeParents [parent] =
      (journal.getParent parent).map (·.vectorClock) := by
    rw [mergeParents, foldlM_cons]
    cases journal.getParent parent <;> rfl
  unfold parentClock at joined
  split at joined
  next parent entry =>
      cases joined
      obtain ⟨id, first, found⟩ := head entry rfl
      obtain rfl : id = parent := by simpa using first
      rw [single, getParent_eq_ok.mpr found]
      rfl
  next parent => rw [single, joined]
  next => exact joined

section Prepared

variable (prepared : journal.prepareAppend blake3 kind actor observed payload = .ok entry)
include prepared

theorem prepareAppend_clock :
    ∃ clock, journal.mergeParents entry.data.parents = .ok clock ∧
      entry.vectorClock = clock.incremented entry.data.actor := by
  simp only [prepareAppend, except_bind_eq_ok] at prepared
  obtain ⟨parents, assembled, headEntry, headFound, clock, joined, prepared⟩ := prepared
  obtain ⟨encoded, encodes, rfl⟩ := entry_new_eq_ok.mp prepared
  have head := headEntry_parent headFound (assembleParents_ok assembled).1
  exact ⟨clock, parentClock_eq head joined, rfl⟩

theorem prepareAppend_head {head : EntryHash} (found : journal.headForActor entry.data.actor = some head) :
    entry.data.parents.head? = some head := by
  simp only [prepareAppend, except_bind_eq_ok] at prepared
  obtain ⟨parents, assembled, headEntry, headFound, clock, joined, prepared⟩ := prepared
  obtain ⟨encoded, encodes, rfl⟩ := entry_new_eq_ok.mp prepared
  have first := (assembleParents_ok assembled).1
  rw [found] at first
  obtain ⟨rest, rfl⟩ := first
  rfl

theorem prepareAppend_eq_ok : entry.Extends blake3 journal ∧ entry.data.kind = kind ∧ entry.data.actor = actor ∧
      entry.data.payload = payload := by
  obtain ⟨merged, merges, incremented⟩ := prepareAppend_clock prepared
  simp only [prepareAppend, except_bind_eq_ok] at prepared
  obtain ⟨parents, assembled, headEntry, headFound, clock, joined, prepared⟩ := prepared
  obtain ⟨encoded, encodes, rfl⟩ := entry_new_eq_ok.mp prepared
  obtain ⟨extended, bounded⟩ := assembleParents_ok assembled
  have contents := addressed_by_contents blake3 encodes (clock.incremented actor)
  have joins := mergeParents_joins merges
  refine ⟨⟨rfl, rfl, bounded, contents, fun id head => ?_, fun noHead => ?_, merged, joins, incremented⟩,
    rfl, rfl, rfl⟩
  · obtain ⟨noHead, _⟩ | ⟨known, previous, present, rfl, found⟩ := headEntry_cases headFound
    · rw [noHead] at head
      cases head
    · obtain rfl : known = id := Option.some.inj (present.symm.trans head)
      rw [head] at extended
      exact ⟨extended.subset (mem_singleton_self known), previous, found, rfl⟩
  · obtain ⟨_, rfl⟩ | ⟨_, _, present, _⟩ := headEntry_cases headFound
    · rfl
    · rw [present] at noHead
      cases noHead

theorem prepareAppend_again :
    journal.prepareAppend blake3 entry.data.kind entry.data.actor entry.data.parents
      entry.data.payload = .ok entry := by
  have stored := prepared
  simp only [prepareAppend, except_bind_eq_ok] at prepared
  obtain ⟨parents, assembled, headEntry, headFound, clock, joined, prepared⟩ := prepared
  obtain ⟨encoded, encodes, rfl⟩ := entry_new_eq_ok.mp prepared
  simp only [prepareAppend, assembled, except_ok_bind] at stored
  simp only [prepareAppend, assembleParents_again assembled, except_ok_bind]
  exact stored

end Prepared

/-- Appending looks at a journal only through its observations. -/
theorem Agrees.prepareAppend {journal other : Journal} (agrees : journal.Agrees other)
    (kind : EntryKind) (actor : ActorId) (observed : List EntryHash) (payload : EntryPayload) :
    journal.prepareAppend blake3 kind actor observed payload =
      other.prepareAppend blake3 kind actor observed payload := by
  have getParent : journal.getParent = other.getParent :=
    funext fun id => by rw [Journal.getParent, Journal.getParent, agrees.get]
  have parentClock : journal.parentClock = other.parentClock := by
    funext parents headEntry
    simp only [Journal.parentClock, mergeParents, getParent]
  rw [Journal.prepareAppend, Journal.prepareAppend, agrees.heads, getParent, parentClock]

theorem append_of_ok (shared : Bool)
    (prepared : journal.prepareAppend blake3 kind actor observed payload = .ok entry) :
    append blake3 shared kind actor observed payload journal =
      (.ok entry.id, (journal.insert entry actor).freezeIfFull shared) := by
  simp only [append, Action.get_bind, prepared, Action.ofExcept_ok_bind, Action.modify_bind, Action.pure_apply]

theorem append_of_error {fault : JournalError} (shared : Bool)
    (refused : journal.prepareAppend blake3 kind actor observed payload = .error fault) :
    append blake3 shared kind actor observed payload journal = (.error fault, journal) := by
  simp only [append, Action.get_bind, refused, Action.ofExcept_error_bind]

/-! ## Batches -/

private theorem headInfo_eq (journal : Journal) (head : Option EntryHash) : (head.mapM fun head =>
        (journal.getParent head).map fun entry => (entry.data.sequence, entry.vectorClock)) =
      (head.mapM journal.getParent).map (Option.map fun entry => (entry.data.sequence, entry.vectorClock)) := by
  cases head with
  | none => rfl
  | some id =>
    simp only [Option.mapM_some]
    cases journal.getParent id <;> rfl

private theorem batchedClock_eq (journal : Journal) (parents : List EntryHash)
    (found : head.mapM journal.getParent = .ok headEntry) : journal.batchedClock parents head
        (headEntry.map fun entry => (entry.data.sequence, entry.vectorClock)) =
      journal.parentClock parents headEntry := by
  obtain ⟨rfl, rfl⟩ | ⟨id, entry, rfl, rfl, _⟩ := headEntry_cases found
  · match parents with
    | [] => rfl
    | [parent] => rfl
    | first :: second :: rest => rfl
  · match parents with
    | [] => rfl
    | [parent] => rfl
    | first :: second :: rest => rfl

theorem prepareBatched_eq (journal : Journal) (previous : Option EntryHash) (spec : BatchEntry) :
    (journal.prepareBatched blake3 previous spec).map (·.entry) =
      journal.prepareAppend blake3 spec.kind spec.actor
        (spec.observedParents ++ (if spec.chainPrevious then previous else none).toList)
        spec.payload := by
  simp only [prepareBatched, prepareAppend, assembleParents_chain _ _ (if _ then _ else _), headInfo_eq]
  cases assembleParents _ _ none with
  | error fault => rfl
  | ok parents =>
    cases found : (journal.headForActor spec.actor).mapM journal.getParent with
    | error fault => rfl
    | ok headEntry =>
      have clocks := batchedClock_eq journal parents found
      simp only [Except.map, bind, Except.bind, clocks]
      cases journal.parentClock parents headEntry with
      | error fault => rfl
      | ok clock => cases headEntry <;> rfl

end Journal

/-- Stands in for the digest where a run is evaluated. -/
def checksum (bytes : Bytes) : EntryHash :=
  ⟨⟨leBytes 32 (bytes.foldl (fun sum byte => sum * 257 + byte.toNat + 1) 0), length_leBytes ..⟩⟩

end Ldgr
