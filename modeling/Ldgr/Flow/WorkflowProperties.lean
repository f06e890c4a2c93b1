import Ldgr.Flow.Workflow
import Ldgr.Journal.Causality

/-! The journal pairs an end with the entry its actor wrote just before it. Steps that are ended right
after their begin stay completed, and recovery finds them. -/

namespace Ldgr.Flow

open Base Format Cbor Action History List StepEvidence AList Journal

variable {blake3 : Bytes → EntryHash} {replaced : Bytes → String} {actor : ActorId}

/-! ## Evidence -/

/-- What an entry owes to the entries before it. -/
structure Succeeds (history : List Entry) (entry : Entry) : Prop where
  fresh : ∀ earlier ∈ history, earlier.id ≠ entry.id
  parents : ∀ id ∈ entry.data.parents, ∃ parent ∈ history, parent.id = id
  head : ∀ last, lastOf history entry.data.actor = some last → entry.data.parents.head? = some last.id

variable {history : List Entry} {entry : Entry} {name : String} {value : UInt64}
  {evidence : StepEvidence}

theorem succeeds_of_built (built : Journal.Built blake3 (history ++ [entry]))
    (distinct : ((history ++ [entry]).map (·.id)).Nodup) :
    Journal.Built blake3 history ∧ Succeeds history entry := by
  obtain ⟨journal, _, _, _, _, shorter, represents, prepared⟩ := built.prepared rfl
  refine ⟨shorter, fun earlier member same => ?_,
    extended_parents represents (prepareAppend_eq_ok prepared).1, fun last found => ?_⟩
  · rw [map_append, map_singleton] at distinct
    exact (nodup_append.mp distinct).2.2 _ (mem_map_of_mem member) _ (mem_singleton_self _) same
  · refine prepareAppend_head prepared ?_
    rw [represents.heads, found]
    rfl

theorem ofEntries_append_singleton (history : List Entry) (entry : Entry) :
    ofEntries replaced actor (history ++ [entry]) =
      (ofEntries replaced actor history).note replaced actor entry := by
  rw [ofEntries, foldl_append]
  rfl

/-- What the evidence says of the entries it was read from. -/
structure StepEvidence.Of (evidence : StepEvidence) (actor : ActorId) (history : List Entry) : Prop where
  named : ∀ name begun, evidence.begins.lookup name = some begun → evidence.beginNames.lookup begun = some name
  begun : ∀ id ∈ evidence.beginNames, ∃ entry ∈ history, entry.id = id ∧ entry.data.actor = actor
  ended : ∀ id ∈ evidence.ends, ∃ entry ∈ history, entry.id = id
  /-- Nothing has been paired with the newest entry of the actor. -/
  newest : ∀ last, lastOf history actor = some last → last.id ∉ evidence.ends

theorem beginOf_actor (found : beginOf replaced actor entry = some name) : entry.data.actor = actor := by
  unfold beginOf at found
  split_ifs at found with other
  exact not_not.mp other

theorem endOf_actor {parent : EntryHash} (found : endOf actor entry = some (parent, value)) :
    entry.data.actor = actor ∧ entry.data.parents.head? = some parent := by
  unfold endOf at found
  split_ifs at found with other
  refine ⟨not_not.mp other, ?_⟩
  split at found
  · obtain ⟨first, same, pair⟩ := Option.map_eq_some_iff.mp found
    cases pair
    exact same
  · cases found

theorem endOf_of_begin (begins : beginOf replaced actor entry = some name) : endOf actor entry = none := by
  unfold beginOf at begins
  split_ifs at begins with other
  split at begins
  next kind payload => rw [endOf, if_neg other, kind, payload]
  next => cases begins

theorem StepEvidence.Of.note (sound : evidence.Of actor history) (succeeds : Succeeds history entry) :
    (evidence.note replaced actor entry).Of actor (history ++ [entry]) := by
  have begunAt : ∀ id ∈ evidence.beginNames,
      ∃ other ∈ history ++ [entry], other.id = id ∧ other.data.actor = actor := fun id member =>
    (sound.begun id member).imp fun _ => And.imp_left (mem_append_left _)
  have endedAt : ∀ id ∈ evidence.ends, ∃ other ∈ history ++ [entry], other.id = id :=
    fun id member => (sound.ended id member).imp fun _ => And.imp_left (mem_append_left _)
  have unpaired : entry.id ∉ evidence.ends := fun member => by
    obtain ⟨other, listed, same⟩ := sound.ended _ member
    exact succeeds.fresh other listed same
  have newest (ends : AList fun _ : EntryHash => UInt64) (paired : entry.id ∉ ends)
      (kept : entry.data.actor ≠ actor → ends = evidence.ends) :
      ∀ last, lastOf (history ++ [entry]) actor = some last → last.id ∉ ends := by
    intro last found
    rw [lastOf_append_singleton] at found
    split_ifs at found with own
    · cases found
      exact paired
    · rw [kept (Ne.symm own)]
      exact sound.newest last found
  unfold StepEvidence.note
  split
  next name begins =>
      have unnamed : entry.id ∉ evidence.beginNames := fun member => by
        obtain ⟨other, listed, same, _⟩ := sound.begun _ member
        exact succeeds.fresh other listed same
      refine ⟨fun other begun found => ?_, fun id member => ?_, endedAt, newest _ unpaired fun _ => rfl⟩
      · by_cases same : other = name
        · rw [same, lookup_insert] at found
          cases found
          rw [lookup_insert, same]
        · rw [lookup_insert_ne same] at found
          have known := sound.named other begun found
          have apart : begun ≠ entry.id := fun equal =>
            unnamed (equal ▸ lookup_isSome.mp (by rw [known]; rfl))
          rw [lookup_insert_ne apart, known]
      · obtain rfl | earlier := (mem_insert _).mp member
        · exact ⟨entry, by simp, rfl, beginOf_actor begins⟩
        · exact begunAt id earlier
  next =>
      split
      next parent value ends =>
          obtain ⟨own, first⟩ := endOf_actor ends
          obtain ⟨other, listed, same⟩ := succeeds.parents parent (mem_of_head? first)
          refine ⟨sound.named, begunAt, fun id member => ?_, newest _ (fun member => ?_) fun apart =>
            absurd own apart⟩
          · obtain rfl | earlier := (mem_insert _).mp member
            · exact ⟨other, mem_append_left _ listed, same⟩
            · exact endedAt id earlier
          · obtain equal | earlier := (mem_insert _).mp member
            · exact succeeds.fresh other listed (same.trans equal.symm)
            · exact unpaired earlier
      next => exact ⟨sound.named, begunAt, endedAt, newest _ unpaired fun _ => rfl⟩

theorem evidence_of_built (built : Journal.Built blake3 history) (distinct : (history.map (·.id)).Nodup) :
    (ofEntries replaced actor history).Of actor history := by
  induction history using List.reverseRecOn with
  | nil =>
    refine ⟨fun _ _ found => ?_, fun _ member => ?_, fun _ member => ?_, fun _ found => ?_⟩
    · cases found
    · cases member
    · cases member
    · cases found
  | append_singleton history entry ih =>
    obtain ⟨shorter, succeeds⟩ := succeeds_of_built built distinct
    rw [map_append] at distinct
    rw [ofEntries_append_singleton]
    exact (ih shorter (List.Nodup.of_append_left distinct)).note succeeds

/-! ## Completed steps -/

/-- No entry after `history` begins the step again. -/
def Unbegun (replaced : Bytes → String) (actor : ActorId) (name : String) (added : List Entry) : Prop :=
  ∀ entry ∈ added, beginOf replaced actor entry ≠ some name

theorem classify_eq_skipped : classify name evidence = .skipped value ↔
      ∃ begun, evidence.begins.lookup name = some begun ∧ evidence.ends.lookup begun = some value := by
  unfold classify
  cases evidence.begins.lookup name with
  | none => simp
  | some begun =>
    cases found : evidence.ends.lookup begun <;> simp [found]

theorem classify_eq_pending : classify name evidence = .pending ↔ evidence.begins.lookup name = none := by
  unfold classify
  cases evidence.begins.lookup name with
  | none => simp
  | some begun => cases found : evidence.ends.lookup begun <;> simp [found]

theorem classify_eq_inProgress {begun : EntryHash} : classify name evidence = .inProgress begun ↔
      evidence.begins.lookup name = some begun ∧ evidence.ends.lookup begun = none := by
  unfold classify
  cases evidence.begins.lookup name with
  | none => simp
  | some other =>
    cases found : evidence.ends.lookup other with
    | none =>
      simp only [found, StepPrior.inProgress.injEq, Option.some.injEq]
      exact ⟨fun same => ⟨same, same ▸ found⟩, And.left⟩
    | some value =>
      simp only [found, reduceCtorEq, Option.some.injEq, false_iff, not_and]
      rintro rfl
      simp [found]

theorem begins_note (other : beginOf replaced actor entry ≠ some name) :
    (evidence.note replaced actor entry).begins.lookup name = evidence.begins.lookup name := by
  unfold note
  split
  next started begin =>
      have apart : name ≠ started := by
        rintro rfl
        exact other begin
      exact lookup_insert_ne apart
  next => split <;> rfl

theorem begins_append {history added : List Entry} (unbegun : Unbegun replaced actor name added) :
    (ofEntries replaced actor (history ++ added)).begins.lookup name =
      (ofEntries replaced actor history).begins.lookup name := by
  induction added using List.reverseRecOn with
  | nil => rw [append_nil]
  | append_singleton added entry ih =>
    rw [← append_assoc, ofEntries_append_singleton, begins_note (unbegun entry (by simp))]
    exact ih fun other member => unbegun other (mem_append_left _ member)

theorem classify_note (sound : evidence.Of actor history) (succeeds : Succeeds history entry)
    (other : beginOf replaced actor entry ≠ some name)
    (skipped : classify name evidence = .skipped value) :
    classify name (evidence.note replaced actor entry) = .skipped value := by
  obtain ⟨begun, begins, ends⟩ := classify_eq_skipped.mp skipped
  refine classify_eq_skipped.mpr ⟨begun, ?_, ?_⟩
  · rw [begins_note other]
    exact begins
  · unfold note
    split
    next => exact ends
    next =>
        split
        next parent result ended =>
            -- An end is paired with the newest entry, and that is not the begin paired before.
            obtain ⟨own, first⟩ := endOf_actor ended
            have apart : begun ≠ parent := by
              rintro rfl
              have paired : begun ∈ evidence.ends := lookup_isSome.mp (by rw [ends]; rfl)
              have named : begun ∈ evidence.beginNames :=
                lookup_isSome.mp (by rw [sound.named name begun begins]; rfl)
              obtain ⟨_, listed, _, acts⟩ := sound.begun begun named
              obtain ⟨last, found⟩ := exists_lastOf listed
              rw [acts] at found
              have head := succeeds.head last (own.symm ▸ found)
              rw [first] at head
              exact sound.newest last found (Option.some.inj head ▸ paired)
            rw [lookup_insert_ne apart]
            exact ends
        next => exact ends

theorem classify_append {history added : List Entry} (built : Journal.Built blake3 (history ++ added))
    (distinct : ((history ++ added).map (·.id)).Nodup) (unbegun : Unbegun replaced actor name added)
    (skipped : classify name (.ofEntries replaced actor history) = .skipped value) :
    classify name (.ofEntries replaced actor (history ++ added)) = .skipped value := by
  induction added using List.reverseRecOn with
  | nil => rwa [append_nil]
  | append_singleton added entry ih =>
    rw [← append_assoc] at built distinct ⊢
    obtain ⟨shorter, succeeds⟩ := succeeds_of_built built distinct
    rw [map_append] at distinct
    have distinct := List.Nodup.of_append_left distinct
    rw [ofEntries_append_singleton]
    refine classify_note (evidence_of_built shorter distinct) succeeds
      (unbegun entry (by simp)) (ih shorter distinct fun other member => unbegun other ?_)
    exact mem_append_left _ member

/-! ## Recovery -/

/-- The steps that recovery finds in the entries. -/
def completedOf (replaced : Bytes → String) (actor : ActorId) (history : List Entry) : List (String × UInt64) :=
  history.filterMap (completedBy (.ofEntries replaced actor history) actor)

theorem parents_of_built (built : Journal.Built blake3 history) (distinct : (history.map (·.id)).Nodup) :
    ∀ entry ∈ history, ∀ id ∈ entry.data.parents, ∃ parent ∈ history, parent.id = id := by
  intro entry member
  obtain ⟨before, after, rfl⟩ := append_of_mem member
  obtain ⟨_, _, _, _, _, _, represents, prepared⟩ := built.prepared rfl
  intro id listed
  obtain ⟨parent, known, same⟩ := extended_parents represents
    (prepareAppend_eq_ok prepared).1 id listed
  exact ⟨parent, mem_append_left _ known, same⟩

theorem beginNames_note {id : EntryHash} (apart : id ≠ entry.id) :
    (evidence.note replaced actor entry).beginNames.lookup id = evidence.beginNames.lookup id := by
  unfold note
  split
  · exact lookup_insert_ne apart
  · split <;> rfl

theorem completedOf_append_singleton (built : Journal.Built blake3 (history ++ [entry]))
    (distinct : ((history ++ [entry]).map (·.id)).Nodup) :
    completedOf replaced actor (history ++ [entry]) = completedOf replaced actor history ++
        (completedBy (.ofEntries replaced actor history) actor entry).toList := by
  obtain ⟨shorter, succeeds⟩ := succeeds_of_built built distinct
  have same : ∀ other : Entry, (∀ id ∈ other.data.parents, ∃ parent ∈ history, parent.id = id) →
      completedBy (.ofEntries replaced actor (history ++ [entry])) actor other =
        completedBy (.ofEntries replaced actor history) actor other := by
    intro other known
    rw [ofEntries_append_singleton, completedBy, completedBy]
    refine Option.bind_congr fun (parent, value) ends => ?_
    obtain ⟨found, listed, rfl⟩ := known parent (mem_of_head? (endOf_actor ends).2)
    dsimp only
    rw [beginNames_note (succeeds.fresh found listed)]
  rw [completedOf, filterMap_append, completedOf]
  congr 1
  · refine filterMap_congr fun other member => same other ?_
    rw [map_append] at distinct
    exact parents_of_built shorter (List.Nodup.of_append_left distinct) other member
  · rw [filterMap_cons, filterMap_nil, same entry succeeds.parents]
    cases completedBy (.ofEntries replaced actor history) actor entry <;> rfl

/-! ## Writing -/

section Writing

variable {σ : Type} {shared : Bool} {live after : Live σ}

variable {hash : EntryHash} {fault : JournalError} {name : String} {value : UInt64}
  {names : List String} {added : List Entry}

theorem appendAs_ok {kind : EntryKind} {observed : List EntryHash} {payload : EntryPayload}
    (appended : appendAs blake3 shared kind observed payload actor live = (.ok hash, after)) :
    ∃ entry, entry.id = hash ∧ entry.data.kind = kind ∧ entry.data.actor = actor ∧
      entry.data.payload = payload ∧ Journal.Gains blake3 [entry] live.journal after.journal ∧
      after = { live with journal := after.journal } := by
  obtain ⟨accepted, rfl⟩ := Prod.mk.inj appended
  obtain ⟨entry, prepared, same, gains⟩ := append_gains (Prod.ext accepted rfl)
  obtain ⟨_, kinds, actors, payloads⟩ := prepareAppend_eq_ok prepared
  exact ⟨entry, same, kinds, actors, payloads, gains, rfl⟩

theorem appendAs_error {kind : EntryKind} {observed : List EntryHash} {payload : EntryPayload}
    (refused : appendAs blake3 shared kind observed payload actor live = (.error fault, after)) :
    after = live := by
  obtain ⟨rejected, rfl⟩ := Prod.mk.inj refused
  cases prepared : live.journal.prepareAppend blake3 kind actor observed payload with
  | ok entry =>
    rw [append_of_ok shared prepared] at rejected
    cases rejected
  | error refusal => rw [append_of_error shared prepared]

theorem stepBegin_ok (begun : stepBegin blake3 shared name live = (.ok hash, after)) :
    ∃ entry, entry.id = hash ∧ entry.data.actor = live.workflow.actor ∧
      beginOf replaced live.workflow.actor entry = some name ∧
      Journal.Gains blake3 [entry] live.journal after.journal ∧
      after.workflow.actor = live.workflow.actor ∧
      after.workflow.completedSteps = live.workflow.completedSteps := by
  rw [stepBegin, get_bind] at begun
  obtain ⟨value, between, appended, rest⟩ := bind_eq_ok.mp begun
  obtain ⟨entry, same, kind, actors, payload, gains, framed⟩ := appendAs_ok appended
  cases rest
  have text : fromUtf8Lossy replaced (textBytes name) = name := by
    rw [fromUtf8Lossy, fromUTF8?_eq_some.mpr rfl, Option.getD_some]
  refine ⟨entry, same, actors, ?_, gains, by rw [framed], by rw [framed]⟩
  rw [beginOf, if_neg (not_not.mpr actors), kind, payload]
  exact congrArg some text

theorem stepBegin_error
    (refused : stepBegin blake3 shared name live = (.error fault, after)) : after = live := by
  rw [stepBegin, get_bind] at refused
  cases result : appendAs blake3 shared .stepBegin [] (.stepBegin ⟨live.workflow.stepCounter,
      textBytes name, none⟩) live.workflow.actor live with
  | mk outcome between =>
    cases outcome with
    | ok hash =>
      rw [bind_of_ok result] at refused
      cases refused
    | error refusal =>
      rw [bind_of_error result] at refused
      cases refused
      exact appendAs_error result

theorem stepEnd_ok {beginHash hash : EntryHash}
    (ended : stepEnd blake3 shared name beginHash value live = (.ok hash, after)) :
    ∃ entry, entry.data.actor = live.workflow.actor ∧ beginOf replaced live.workflow.actor entry = none ∧
      endOf live.workflow.actor entry = entry.data.parents.head?.map (·, value) ∧
      Journal.Gains blake3 [entry] live.journal after.journal ∧
      after.workflow.actor = live.workflow.actor ∧
      after.workflow.completedSteps = live.workflow.completedSteps ++ [(name, value)] := by
  rw [stepEnd, get_bind] at ended
  obtain ⟨stored, between, appended, rest⟩ := bind_eq_ok.mp ended
  obtain ⟨entry, same, kind, actors, payload, gains, framed⟩ := appendAs_ok appended
  cases rest
  refine ⟨entry, actors, ?_, ?_, gains, by rw [framed], by rw [framed]⟩
  · rw [beginOf, if_neg (not_not.mpr actors), kind, payload]
  · rw [endOf, if_neg (not_not.mpr actors), kind, payload]

theorem stepEnd_error {beginHash : EntryHash}
    (refused : stepEnd blake3 shared name beginHash value live = (.error fault, after)) :
    after = live := by
  rw [stepEnd, get_bind] at refused
  cases result : appendAs blake3 shared .stepEnd [beginHash] (.stepEnd (.completed
      live.workflow.stepCounter (.unsigned value))) live.workflow.actor live with
  | mk outcome between =>
    cases outcome with
    | ok hash =>
      rw [bind_of_ok result] at refused
      cases refused
    | error refusal =>
      rw [bind_of_error result] at refused
      cases refused
      exact appendAs_error result

/-- The journal shows `history`, and the workflow knows the steps that recovery would find. -/
structure Matches (blake3 : Bytes → EntryHash) (replaced : Bytes → String) (live : Live σ)
    (history : List Entry) : Prop where
  built : Journal.Built blake3 history
  represents : live.journal.Represents history
  completed : live.workflow.completedSteps = completedOf replaced live.workflow.actor history

variable {history : List Entry}

theorem Matches.nodup (matched : Matches blake3 replaced live history)
    (distinct : live.journal.ids.Nodup) : (history.map (·.id)).Nodup :=
  matched.represents.ids ▸ distinct

theorem nodup_of_writes {before last : Journal} (built : Journal.Built blake3 history)
    (represents : before.Represents history) (writes : Journal.Writes blake3 before last)
    (distinct : last.ids.Nodup) : before.ids.Nodup := by
  obtain ⟨added, gains⟩ := writes
  obtain ⟨_, represented⟩ := gains history built represents
  rw [represented.ids, map_append] at distinct
  rw [represents.ids]
  exact List.Nodup.of_append_left distinct

theorem Matches.begin {last : Journal} (matched : Matches blake3 replaced live history)
    (begun : stepBegin blake3 shared name live = (.ok hash, after))
    (writes : Journal.Writes blake3 after.journal last) (distinct : last.ids.Nodup) :
    ∃ entry, entry.id = hash ∧ entry.data.actor = live.workflow.actor ∧
      beginOf replaced live.workflow.actor entry = some name ∧
      after.workflow.actor = live.workflow.actor ∧
      Matches blake3 replaced after (history ++ [entry]) := by
  obtain ⟨entry, same, actors, named, gains, actor, completed⟩ := stepBegin_ok begun
  obtain ⟨built, represents⟩ := gains history matched.built matched.represents
  refine ⟨entry, same, actors, named, actor, built, represents, ?_⟩
  have unended : completedBy (.ofEntries replaced live.workflow.actor history) live.workflow.actor
      entry = none := by
    rw [completedBy, endOf_of_begin named]
    rfl
  have distinct := nodup_of_writes built represents writes distinct
  rw [completed, actor, completedOf_append_singleton built (represents.ids ▸ distinct), unended,
    matched.completed]
  exact (append_nil _).symm

theorem Matches.end {beginHash hash : EntryHash} {last : Entry} (matched : Matches blake3 replaced live history)
    (newest : lastOf history live.workflow.actor = some last)
    (begun : (ofEntries replaced live.workflow.actor history).begins.lookup name =
      some last.id) (ended : stepEnd blake3 shared name beginHash value live = (.ok hash, after))
    (distinct : after.journal.ids.Nodup) :
    ∃ entry, beginOf replaced live.workflow.actor entry = none ∧ after.workflow.actor = live.workflow.actor ∧
      Matches blake3 replaced after (history ++ [entry]) ∧
      classify name (.ofEntries replaced live.workflow.actor (history ++ [entry])) = .skipped value := by
  obtain ⟨entry, actors, unbegun, ends, gains, actor, completed⟩ := stepEnd_ok ended
  obtain ⟨built, represents⟩ := gains history matched.built matched.represents
  have distinct : ((history ++ [entry]).map (·.id)).Nodup := represents.ids ▸ distinct
  have shorter : (history.map (·.id)).Nodup := by
    rw [map_append] at distinct
    exact List.Nodup.of_append_left distinct
  have named := (evidence_of_built matched.built shorter).named name last.id begun
  have first := (succeeds_of_built built distinct).2.head last (actors.symm ▸ newest)
  rw [first, Option.map_some] at ends
  refine ⟨entry, unbegun, actor, ⟨built, represents, ?_⟩, classify_eq_skipped.mpr ⟨last.id, ?_, ?_⟩⟩
  · rw [completed, actor, completedOf_append_singleton built distinct, matched.completed, completedBy,
      ends, Option.bind_some]
    dsimp only
    rw [named]
    rfl
  · rw [ofEntries_append_singleton, begins_note (by rw [unbegun]; nofun), begun]
  · rw [ofEntries_append_singleton, note, unbegun, ends]
    exact lookup_insert _

/-! ## Resuming -/

/-- Nothing is in progress among the steps. -/
def Quiet (evidence : StepEvidence) (names : List String) : Prop :=
  ∀ name ∈ names, ∀ begun, classify name evidence ≠ .inProgress begun

/-- Of the steps to resume, only the first that is not skipped may be in progress, and its begin is the
newest entry of the actor. -/
def Orderly (evidence : StepEvidence) (newest : Option EntryHash) : List String → Prop
  | [] => True
  | name :: names =>
    match classify name evidence with
    | .skipped _ => Orderly evidence newest names
    | .inProgress begun => newest = some begun ∧ Quiet evidence names
    | .pending => Quiet evidence names

theorem Quiet.orderly {evidence : StepEvidence} (quiet : Quiet evidence names)
    (newest : Option EntryHash) : Orderly evidence newest names := by
  induction names with
  | nil => trivial
  | cons name names ih =>
    obtain ⟨first, rest⟩ := forall_mem_cons.mp quiet
    rw [Orderly]
    split
    · exact ih rest
    · next begun progress => exact absurd progress (first begun)
    · exact rest

theorem classify_quiet (built : Journal.Built blake3 (history ++ added))
    (distinct : ((history ++ added).map (·.id)).Nodup) (unbegun : Unbegun replaced actor name added)
    (quiet : ∀ begun, classify name (.ofEntries replaced actor history) ≠ .inProgress begun) :
    classify name (.ofEntries replaced actor (history ++ added)) =
      classify name (.ofEntries replaced actor history) := by
  cases prior : classify name (.ofEntries replaced actor history) with
  | inProgress begun => exact absurd prior (quiet begun)
  | skipped value => exact classify_append built distinct unbegun prior
  | pending =>
    rw [classify_eq_pending] at prior ⊢
    rw [begins_append unbegun, prior]

/-- What is done while resuming: entries that begin steps of `names` only. -/
structure Continues (blake3 : Bytes → EntryHash) (replaced : Bytes → String) (names : List String)
    (live after : Live σ) (history added : List Entry) : Prop where
  actor : after.workflow.actor = live.workflow.actor
  matched : Matches blake3 replaced after (history ++ added)
  begins : ∀ entry ∈ added, ∀ name, beginOf replaced live.workflow.actor entry = some name → name ∈ names

theorem Continues.stopped (matched : Matches blake3 replaced live history)
    (workflow : after.workflow = live.workflow) (journal : after.journal = live.journal) :
    Continues blake3 replaced names live after history [] where
  actor := by rw [workflow]
  matched := by
    rw [append_nil]
    exact ⟨matched.built, journal ▸ matched.represents, workflow ▸ matched.completed⟩
  begins := forall_mem_nil _

theorem Continues.trans {between : Live σ} {added next : List Entry}
    (first : Continues blake3 replaced names live between history added)
    (second : Continues blake3 replaced names between after (history ++ added) next) :
    Continues blake3 replaced names live after history (added ++ next) where
  actor := second.actor.trans first.actor
  matched := by
    rw [← append_assoc]
    exact second.matched
  begins := by
    refine forall_mem_append.mpr ⟨first.begins, fun entry member name begins => ?_⟩
    rw [← first.actor] at begins
    exact second.begins entry member name begins

theorem Continues.mono {names more : List String}
    (continues : Continues blake3 replaced names live after history added) (part : names ⊆ more) :
    Continues blake3 replaced more live after history added :=
  ⟨continues.actor, continues.matched, fun entry member name begins =>
    part (continues.begins entry member name begins)⟩

theorem Continues.unbegun (continues : Continues blake3 replaced names live after history added)
    (other : name ∉ names) : Unbegun replaced live.workflow.actor name added :=
  fun entry member begins => other (continues.begins entry member name begins)

theorem runEffect_matches {exec : String → Action σ FlowError UInt64}
    {result : Except FlowError UInt64} (matched : Matches blake3 replaced live history)
    (ran : runEffect exec name live = (result, after)) :
    after.workflow = live.workflow ∧ after.journal = live.journal ∧
      Matches blake3 replaced after history := by
  obtain ⟨_, rfl⟩ := Prod.mk.inj ran
  exact ⟨rfl, rfl, matched.built, matched.represents, matched.completed⟩

/-- A step begun last is completed, unless its effect or its end fails. -/
theorem completeStep_continues {exec : String → Action σ FlowError UInt64} {status : ResumeStatus}
    {last : Entry} {result : Except FlowError StepOutcome}
    (matched : Matches blake3 replaced live history)
    (newest : lastOf history live.workflow.actor = some last)
    (begun : (ofEntries replaced live.workflow.actor history).begins.lookup name = some last.id)
    (completes : completeStep blake3 shared exec status name last.id live = (result, after))
    (distinct : after.journal.ids.Nodup) :
    ∃ added, Continues blake3 replaced [] live after history added ∧
      ∀ outcome, result = .ok outcome → outcome.name = name ∧
        classify name (.ofEntries replaced live.workflow.actor (history ++ added)) =
          .skipped outcome.result := by
  cases effect : runEffect exec name live with
  | mk ran between =>
    obtain ⟨workflow, journal, ready⟩ := runEffect_matches matched effect
    cases ran with
    | error fault =>
      rw [completeStep, bind_of_error effect] at completes
      cases completes
      exact ⟨[], .stopped matched workflow journal, nofun⟩
    | ok value =>
      rw [completeStep, bind_of_ok effect] at completes
      cases ended : stepEnd blake3 shared name last.id value between with
      | mk outcome final =>
        cases outcome with
        | error fault =>
          rw [bind_of_error (mapError_of_error ended)] at completes
          cases completes
          obtain rfl := stepEnd_error ended
          exact ⟨[], .stopped matched workflow journal, nofun⟩
        | ok hash =>
          rw [bind_of_ok (mapError_eq_ok.mpr ended)] at completes
          cases completes
          rw [← workflow] at newest begun ⊢
          obtain ⟨entry, unbegun, actor, matchedAfter, skipped⟩ :=
            ready.end newest begun ended distinct
          rw [workflow] at actor unbegun
          refine ⟨[entry], ⟨actor, matchedAfter, forall_mem_singleton.mpr ?_⟩, ?_⟩
          · intro name begins
            rw [unbegun] at begins
            cases begins
          · rintro outcome ⟨⟩
            exact ⟨rfl, skipped⟩

/-- Whatever a call does, the journal only grows and the actor stays. -/
structure Advances (blake3 : Bytes → EntryHash) (before after : Live σ) : Prop where
  actor : after.workflow.actor = before.workflow.actor
  writes : Journal.Writes blake3 before.journal after.journal

instance : Std.Refl (@Advances σ blake3) where
  refl _ := ⟨rfl, Std.Refl.refl _⟩

instance : IsTrans (Live σ) (Advances blake3) where
  trans _ _ _ first second :=
    ⟨second.actor.trans first.actor, IsTrans.trans _ _ _ first.writes second.writes⟩

theorem appendAs_advances (kind : EntryKind) (observed : List EntryHash) (payload : EntryPayload)
    (actor : ActorId) :
    (appendAs blake3 shared kind observed payload actor :
      Action (Live σ) JournalError EntryHash).Relates (Advances blake3) :=
  (append_writes shared kind actor observed payload).zoom fun _ _ writes => ⟨rfl, writes⟩

theorem stepBegin_advances (name : String) :
    (stepBegin blake3 shared name : Action (Live σ) JournalError EntryHash).Relates (Advances blake3) :=
  relates_get.bind fun _ => (appendAs_advances _ _ _ _).bind fun _ =>
    (relates_modify fun _ => ⟨rfl, Std.Refl.refl _⟩).bind fun _ => relates_pure _

theorem stepEnd_advances (name : String) (beginHash : EntryHash) (value : UInt64) :
    (stepEnd blake3 shared name beginHash value : Action (Live σ) JournalError EntryHash).Relates
      (Advances blake3) :=
  relates_get.bind fun _ => (appendAs_advances _ _ _ _).bind fun _ =>
    (relates_modify fun _ => ⟨rfl, Std.Refl.refl _⟩).bind fun _ => relates_pure _

theorem runEffect_advances (exec : String → Action σ FlowError UInt64) (name : String) :
    (runEffect exec name).Relates (Advances blake3) :=
  fun _ => ⟨rfl, Std.Refl.refl _⟩

variable (exec : String → Action σ FlowError UInt64) (evidence : StepEvidence)

theorem completeStep_advances (status : ResumeStatus) (name : String) (beginHash : EntryHash) :
    (completeStep blake3 shared exec status name beginHash).Relates (Advances blake3) :=
  (runEffect_advances exec name).bind fun _ => (stepEnd_advances _ _ _).mapError.bind fun _ =>
    relates_pure _

theorem resumeStep_advances (name : String) :
    (resumeStep blake3 shared exec evidence name).Relates (Advances blake3) := by
  unfold resumeStep
  split
  · exact relates_pure _
  · exact completeStep_advances exec _ _ _
  · exact (stepBegin_advances name).mapError.bind fun _ => completeStep_advances exec _ _ _

theorem resumeSteps_advances (names : List String) :
    (resumeSteps blake3 shared exec evidence names).Relates (Advances blake3) := by
  induction names with
  | nil => exact relates_pure _
  | cons name names ih =>
    exact (resumeStep_advances exec evidence name).bind fun _ => ih.bind fun _ =>
      relates_pure _

theorem resume_advances : (resume blake3 replaced shared exec).Relates (Advances blake3) := by
  refine relates_get.bind fun live => ?_
  cases live.workflow.plan with
  | none => exact relates_fail _
  | some plan => exact resumeSteps_advances exec _ plan.steps

variable {exec evidence}

theorem resumeStep_continues {result : Except FlowError StepOutcome}
    (matched : Matches blake3 replaced live history) (agrees : classify name evidence =
      classify name (.ofEntries replaced live.workflow.actor history))
    (orderly : Orderly (.ofEntries replaced live.workflow.actor history)
      ((lastOf history live.workflow.actor).map (·.id)) (name :: names))
    (resumed : resumeStep blake3 shared exec evidence name live = (result, after))
    (distinct : after.journal.ids.Nodup) :
    ∃ added, Continues blake3 replaced [name] live after history added ∧
      (added = [] ∧ Orderly (.ofEntries replaced live.workflow.actor history)
          ((lastOf history live.workflow.actor).map (·.id)) names ∨
        Quiet (.ofEntries replaced live.workflow.actor history) names) ∧
      ∀ outcome, result = .ok outcome → outcome.name = name ∧
        classify name (.ofEntries replaced live.workflow.actor (history ++ added)) =
          .skipped outcome.result := by
  rw [resumeStep, agrees] at resumed
  rw [Orderly] at orderly
  cases prior : classify name (.ofEntries replaced live.workflow.actor history) with
  | skipped value =>
    rw [prior] at resumed orderly
    cases resumed
    refine ⟨[], .stopped matched rfl rfl, .inl ⟨rfl, orderly⟩, ?_⟩
    rintro outcome ⟨⟩
    rw [append_nil]
    exact ⟨rfl, prior⟩
  | inProgress begun =>
    rw [prior] at resumed orderly
    obtain ⟨newest, quiet⟩ := orderly
    obtain ⟨last, found, rfl⟩ := Option.map_eq_some_iff.mp newest
    obtain ⟨added, continues, completed⟩ := completeStep_continues matched found
      (classify_eq_inProgress.mp prior).1 resumed distinct
    exact ⟨added, continues.mono (nil_subset _), .inr quiet, completed⟩
  | pending =>
    rw [prior] at resumed orderly
    dsimp only at resumed
    cases begun : stepBegin blake3 shared name live with
    | mk started between =>
      cases started with
      | error fault =>
        rw [bind_of_error (mapError_of_error begun)] at resumed
        cases resumed
        obtain rfl := stepBegin_error begun
        exact ⟨[], .stopped matched rfl rfl, .inr orderly, nofun⟩
      | ok hash =>
        rw [bind_of_ok (mapError_eq_ok.mpr begun)] at resumed
        have rest : Advances blake3 between (completeStep blake3 shared exec .executed name hash between).2 :=
          completeStep_advances exec .executed name hash between
        rw [resumed] at rest
        obtain ⟨entry, rfl, actors, named, actor, ready⟩ :=
          matched.begin begun rest.writes distinct
        rw [← actor] at actors
        have newest : lastOf (history ++ [entry]) between.workflow.actor = some entry := by
          rw [lastOf_append_singleton, if_pos actors.symm]
        have started : (ofEntries replaced between.workflow.actor
            (history ++ [entry])).begins.lookup name = some entry.id := by
          rw [actor, ofEntries_append_singleton, note, named]
          exact lookup_insert _
        obtain ⟨added, continues, completed⟩ :=
          completeStep_continues ready newest started resumed distinct
        refine ⟨[entry] ++ added, Continues.trans ⟨actor, ready, ?_⟩
          (continues.mono (nil_subset _)), .inr orderly, ?_⟩
        · refine forall_mem_singleton.mpr fun other begins => ?_
          rw [named] at begins
          cases begins
          exact mem_singleton_self _
        · rw [actor, append_assoc] at completed
          exact completed

theorem distinct_between {between : Live σ}
    {outcome : Except FlowError StepOutcome} {outcomes : Except FlowError (List StepOutcome)}
    (matched : Matches blake3 replaced live history)
    (first : resumeStep blake3 shared exec evidence name live = (outcome, between))
    (rest : resumeSteps blake3 shared exec evidence names between = (outcomes, after))
    (distinct : after.journal.ids.Nodup) : between.journal.ids.Nodup := by
  have stepped : Advances blake3 live (resumeStep blake3 shared exec evidence name live).2 :=
    resumeStep_advances exec evidence name live
  have finished : Advances blake3 between (resumeSteps blake3 shared exec evidence names between).2 :=
    resumeSteps_advances exec evidence names between
  rw [first] at stepped
  rw [rest] at finished
  obtain ⟨added, gains⟩ := stepped.writes
  obtain ⟨built, represents⟩ := gains history matched.built matched.represents
  exact nodup_of_writes built represents finished.writes distinct

theorem resumeSteps_continues {result : Except FlowError (List StepOutcome)}
    (matched : Matches blake3 replaced live history) (planned : names.Nodup)
    (agrees : ∀ name ∈ names, classify name evidence =
      classify name (.ofEntries replaced live.workflow.actor history))
    (orderly : Orderly (.ofEntries replaced live.workflow.actor history)
      ((lastOf history live.workflow.actor).map (·.id)) names)
    (resumed : resumeSteps blake3 shared exec evidence names live = (result, after))
    (distinct : after.journal.ids.Nodup) :
    ∃ added, Continues blake3 replaced names live after history added ∧
      ∀ outcomes, result = .ok outcomes → ∀ outcome ∈ outcomes,
        classify outcome.name (.ofEntries replaced live.workflow.actor (history ++ added)) =
          .skipped outcome.result := by
  induction names generalizing live history result with
  | nil =>
    cases resumed
    refine ⟨[], .stopped matched rfl rfl, ?_⟩
    rintro outcomes ⟨⟩
    exact forall_mem_nil _
  | cons name names ih =>
    obtain ⟨absent, planned⟩ := nodup_cons.mp planned
    obtain ⟨agreesFirst, agrees⟩ := forall_mem_cons.mp agrees
    rw [resumeSteps] at resumed
    cases first : resumeStep blake3 shared exec evidence name live with
    | mk stepped between =>
      cases stepped with
      | error fault =>
        rw [bind_of_error first] at resumed
        cases resumed
        obtain ⟨added, continues, _⟩ :=
          resumeStep_continues matched agreesFirst orderly first distinct
        exact ⟨added, continues.mono (by simp), nofun⟩
      | ok outcome =>
        rw [bind_of_ok first, bind_pure_apply] at resumed
        cases rest : resumeSteps blake3 shared exec evidence names between with
        | mk outcomes final =>
          rw [rest] at resumed
          cases resumed
          have distinctBetween := distinct_between matched first rest distinct
          obtain ⟨added, continues, progress, completed⟩ :=
            resumeStep_continues matched agreesFirst orderly first distinctBetween
          have nodup := continues.matched.nodup distinctBetween
          have unchanged : ∀ other ∈ names, classify other (.ofEntries replaced
              live.workflow.actor (history ++ added)) =
              classify other (.ofEntries replaced live.workflow.actor history) := by
            intro other member
            obtain ⟨rfl, _⟩ | quiet := progress
            · rw [append_nil]
            · have apart : other ∉ [name] := by
                rw [mem_singleton]
                exact ne_of_mem_of_not_mem member absent
              exact classify_quiet continues.matched.built nodup (continues.unbegun apart) (quiet other member)
          have next : Orderly (.ofEntries replaced live.workflow.actor (history ++ added))
              ((lastOf (history ++ added) live.workflow.actor).map (·.id)) names := by
            obtain ⟨rfl, orderly⟩ | quiet := progress
            · rwa [append_nil]
            · refine Quiet.orderly (fun other member begun => ?_) _
              rw [unchanged other member]
              exact quiet other member begun
          obtain ⟨more, proceeds, remaining⟩ := ih continues.matched planned (fun other member => by
              rw [continues.actor, unchanged other member]
              exact agrees other member)
            (by rwa [continues.actor]) rest
          rw [continues.actor, append_assoc] at remaining
          refine ⟨added ++ more, Continues.trans (continues.mono (by simp))
            (proceeds.mono (subset_cons_self _ _)), fun all reported => ?_⟩
          cases outcomes with
          | error fault => cases reported
          | ok outcomes =>
            cases reported
            refine forall_mem_cons.mpr ⟨?_, remaining outcomes rfl⟩
            obtain ⟨rfl, skipped⟩ := completed outcome rfl
            have unbegun := proceeds.unbegun absent
            rw [continues.actor] at unbegun
            rw [← append_assoc]
            exact classify_append proceeds.matched.built (proceeds.matched.nodup distinct) unbegun skipped

end Writing

end Ldgr.Flow
