import Ldgr.Base.Worklist
import Ldgr.Journal.Monitor

/-! Slices are cut along the causal order: what the clocks put below the targets, what descends from
the sources, and a journal of its own in the end. -/

namespace Ldgr

open Base Format Relation List History

namespace Journal

def parentsOf (journal : Journal) (id : EntryHash) : List EntryHash :=
  (journal.get id).elim [] (·.data.parents)

def keys (journal : Journal) : List EntryHash :=
  journal.overlay.keys ++ journal.base.keys

/-- Every id the walk along parents sees. The last target is on top of the stack. -/
def backward (journal : Journal) (targets : List EntryHash) : List EntryHash :=
  collect journal.parentsOf (targets.length + (journal.keys.map fun id => (journal.parentsOf id).length).sum)
    targets.reverse []

/-- The joint backward causal closure of the targets, in append order. -/
def causalSlice (journal : Journal) (targets : List EntryHash) : Except JournalError (List EntryHash) :=
  match targets.find? fun target => (journal.get target).isNone with
  | some target => .error (.missingParent target)
  | none => .ok (journal.ids.filter (· ∈ journal.backward targets))

/-- The ids a pass over the entries marks as affected. -/
def affected (entries : List Entry) (sources : List EntryHash) : List EntryHash :=
  entries.foldl (fun affected entry =>
      if entry.data.parents.any (· ∈ affected) then entry.id :: affected else affected)
    sources

def forwardCone (journal : Journal) (sources : List EntryHash) : List EntryHash :=
  journal.ids.filter (· ∈ affected journal.entries sources)

def causalSliceForward (journal : Journal) (targets : List EntryHash) :
    Except JournalError (List EntryHash) := do
  let backward ← journal.causalSlice targets
  journal.causalSlice (journal.forwardCone backward)

def addToSubgraph (journal : Journal) (hashes : List EntryHash) (sub : Journal) (id : EntryHash) : Journal :=
  if id ∈ hashes then
    match journal.get id with
    | some entry =>
      { sub with
        base := sub.base.insert id entry
        heads := sub.heads.insert entry.data.actor id
        order := sub.order ++ [id] }
    | none => sub
  else sub

/-- A journal with only the requested entries, all of them frozen. -/
def subgraph (journal : Journal) (hashes : List EntryHash) : Except JournalError Journal :=
  .ok (journal.ids.foldl (journal.addToSubgraph hashes) .new)

variable {blake3 : Bytes → EntryHash} {journal : Journal} {history : List Entry}

/-! ## Backward -/

theorem get_eq_none {id : EntryHash} (absent : id ∉ journal.keys) : journal.get id = none := by
  rw [keys, mem_append, not_or] at absent
  rw [get, AList.lookup_eq_none.mpr absent.1, AList.lookup_eq_none.mpr absent.2]
  rfl

variable {targets : List EntryHash}

theorem mem_backward_iff {id : EntryHash} : id ∈ journal.backward targets ↔
      ∃ target ∈ targets, Worklist.Leads journal.parentsOf target id :=
  Worklist.mem_collect_nil_iff (fun other absent => by rw [parentsOf, get_eq_none absent]; rfl) targets id

variable {entry : Entry} {newest : Entry} {sub : Journal} {hashes : List EntryHash}

theorem Represents.get_self (represents : journal.Represents history)
    (causal : History.Causal history) (member : entry ∈ history) :
    journal.get entry.id = some entry := by
  rw [represents.get, causal.find_self member]

theorem Represents.parentsOf_self (represents : journal.Represents history)
    (causal : History.Causal history) (member : entry ∈ history) :
    journal.parentsOf entry.id = entry.data.parents := by
  rw [parentsOf, represents.get_self causal member]
  rfl

theorem Represents.leads_iff (represents : journal.Represents history)
    (causal : History.Causal history) {target : Entry} (member : target ∈ history) (id : EntryHash) :
    Worklist.Leads journal.parentsOf target.id id ↔
      ∃ entry ∈ history, entry.id = id ∧ ReflTransGen (History.Parent history) entry target := by
  constructor
  · intro leads
    induction leads with
    | refl => exact ⟨target, member, rfl, .refl⟩
    | tail _ link ih =>
      obtain ⟨entry, listed, rfl, past⟩ := ih
      rw [represents.parentsOf_self causal listed] at link
      obtain ⟨parent, known, rfl⟩ := causal.parents listed _ link
      exact ⟨parent, known, rfl, past.head ⟨known, listed, link⟩⟩
  · rintro ⟨entry, listed, rfl, past⟩
    induction past using ReflTransGen.head_induction_on with
    | refl => exact .refl
    | head link _ ih =>
      refine (ih link.2.1).tail ?_
      rw [represents.parentsOf_self causal link.2.1]
      exact link.2.2

theorem causalSlice_of_present (present : ∀ target ∈ targets, (journal.get target).isSome) :
    journal.causalSlice targets = .ok (journal.ids.filter (· ∈ journal.backward targets)) := by
  have all : (targets.find? fun target => (journal.get target).isNone) = none :=
    List.find?_eq_none.mpr fun target member => by
      simpa [Option.isSome_iff_ne_none] using present target member
  rw [causalSlice, all]

/-! ## Forward -/

/-- The entries with a source in their strict causal past. -/
def Descends (history : List Entry) (sources : List EntryHash) (entry : Entry) : Prop :=
  ∃ source ∈ history, source.id ∈ sources ∧ TransGen (History.Parent history) source entry

theorem transGen_append_singleton (causal : History.Causal history)
    (follows : History.Follows history newest) {earlier later : Entry} (member : later ∈ history) :
    TransGen (History.Parent (history ++ [newest])) earlier later ↔
      TransGen (History.Parent history) earlier later := by
  have old {first second : Entry} (listed : second ∈ history)
      (link : History.Parent (history ++ [newest]) first second) :
      History.Parent history first second := by
    obtain old | ⟨_, rfl, _⟩ := (parent_append_singleton causal follows _ _).mp link
    · exact old
    · exact absurd rfl (follows.fresh _ listed)
  constructor
  · intro path
    induction path with
    | single link => exact .single (old member link)
    | tail _ link ih =>
      have link := old member link
      exact (ih link.1).tail link
  · have wider : History.Parent history ≤ History.Parent (history ++ [newest]) :=
      fun _ _ link => link.append_singleton newest
    exact TransGen.mono wider earlier later

theorem descends_append_singleton (causal : History.Causal history)
    (follows : History.Follows history newest) {sources : List EntryHash}
    (member : entry ∈ history) :
    Descends (history ++ [newest]) sources entry ↔ Descends history sources entry := by
  constructor
  · rintro ⟨source, _, selected, path⟩
    have path := (transGen_append_singleton causal follows member).mp path
    obtain ⟨_, link, _⟩ := TransGen.head'_iff.mp path
    exact ⟨source, link.1, selected, path⟩
  · rintro ⟨source, known, selected, path⟩
    exact ⟨source, mem_append_left _ known, selected,
      (transGen_append_singleton causal follows member).mpr path⟩

theorem descends_newest (causal : History.Causal history)
    (follows : History.Follows history newest) {sources : List EntryHash} :
    Descends (history ++ [newest]) sources newest ↔ ∃ parent ∈ history, parent.id ∈ newest.data.parents ∧
        (parent.id ∈ sources ∨ Descends history sources parent) := by
  have absent : newest ∉ history := fun member => follows.fresh newest member rfl
  constructor
  · rintro ⟨source, _, selected, path⟩
    obtain ⟨parent, path, link⟩ := TransGen.tail'_iff.mp path
    obtain old | ⟨known, _, listed⟩ := (parent_append_singleton causal follows _ _).mp link
    · exact absurd old.2.1 absent
    · refine ⟨parent, known, listed, ?_⟩
      obtain same | path := reflTransGen_iff_eq_or_transGen.mp path
      · exact .inl (same ▸ selected)
      · refine .inr ((descends_append_singleton causal follows known).mp ⟨source, ?_, selected, path⟩)
        obtain ⟨_, link, _⟩ := TransGen.head'_iff.mp path
        exact link.1
  · rintro ⟨parent, known, listed, selected⟩
    have link : History.Parent (history ++ [newest]) parent newest :=
      ⟨mem_append_left _ known, by simp, listed⟩
    obtain selected | descends := selected
    · exact ⟨parent, link.1, selected, .single link⟩
    · obtain ⟨source, inside, selected, path⟩ :=
        (descends_append_singleton causal follows known).mpr descends
      exact ⟨source, inside, selected, path.tail link⟩

theorem mem_affected_iff (causal : History.Causal history) (sources : List EntryHash) (id : EntryHash) :
    id ∈ affected history sources ↔
      id ∈ sources ∨ ∃ entry ∈ history, entry.id = id ∧ Descends history sources entry := by
  induction causal generalizing id with
  | nil => simp [affected]
  | @snoc history newest causal follows ih =>
    have marked : (newest.data.parents.any fun parent => decide (parent ∈ affected history sources)) =
        true ↔ Descends (history ++ [newest]) sources newest := by
      rw [descends_newest causal follows, any_eq_true]
      constructor
      · rintro ⟨parent, listed, member⟩
        obtain selected | ⟨entry, known, rfl, descends⟩ := (ih parent).mp (of_decide_eq_true member)
        · obtain ⟨entry, known, rfl⟩ := follows.parents parent listed
          exact ⟨entry, known, listed, .inl selected⟩
        · exact ⟨entry, known, listed, .inr descends⟩
      · rintro ⟨parent, known, listed, selected⟩
        refine ⟨parent.id, listed, decide_eq_true ((ih _).mpr ?_)⟩
        exact selected.imp_right fun descends => ⟨parent, known, rfl, descends⟩
    have older : (∃ entry ∈ history, entry.id = id ∧ Descends history sources entry) ↔
        ∃ entry ∈ history, entry.id = id ∧ Descends (history ++ [newest]) sources entry :=
      exists_congr fun entry => and_congr_right fun known => and_congr_right fun _ =>
        (descends_append_singleton causal follows known).symm
    have step : affected (history ++ [newest]) sources =
        if newest.data.parents.any (fun parent => decide (parent ∈ affected history sources)) then
          newest.id :: affected history sources
        else affected history sources := by
      rw [affected, foldl_append]
      rfl
    rw [step]
    simp only [mem_append, mem_singleton, or_and_right, exists_or, exists_eq_left, ← older]
    by_cases reached : Descends (history ++ [newest]) sources newest
    · rw [if_pos (marked.mpr reached), mem_cons, ih id, eq_comm]
      simp only [reached, and_true]
      rw [or_comm, or_assoc]
    · rw [if_neg (mt marked.mp reached), ih id]
      simp only [reached, and_false, or_false]

/-! ## Subgraphs -/

def restricted (history : List Entry) (hashes : List EntryHash) : List Entry :=
  history.filter (·.id ∈ hashes)

/-- A journal all of whose entries are frozen. -/
structure Frozen (sub : Journal) (kept : List Entry) : Prop where
  represents : sub.Represents kept
  overlay : sub.overlay = ∅
  overlayOrder : sub.overlayOrder = []

theorem Frozen.insert {kept : List Entry} (frozen : sub.Frozen kept) (entry : Entry) : Frozen
      { sub with
        base := sub.base.insert entry.id entry
        heads := sub.heads.insert entry.data.actor entry.id
        order := sub.order ++ [entry.id] }
      (kept ++ [entry]) := by
  have unlisted (id : EntryHash) : sub.overlay.lookup id = none := by
    rw [frozen.overlay]
    exact AList.lookup_empty id
  refine ⟨⟨?_, fun id => ?_, fun actor => ?_⟩, frozen.overlay, frozen.overlayOrder⟩
  · have ids := frozen.represents.ids
    rw [Journal.ids, frozen.overlayOrder, append_nil] at ids
    rw [Journal.ids, frozen.overlayOrder, append_nil, ids, map_append]
    rfl
  · have known := frozen.represents.get id
    rw [get, unlisted, Option.none_or] at known
    rw [find_append_singleton, ← known, get, unlisted, Option.none_or]
    by_cases same : id = entry.id
    · rw [if_pos same, same, AList.lookup_insert]
    · rw [if_neg same, AList.lookup_insert_ne same]
  · rw [lastOf_append_singleton, headForActor]
    by_cases same : actor = entry.data.actor
    · rw [if_pos same, same, AList.lookup_insert]
      rfl
    · rw [if_neg same, AList.lookup_insert_ne same]
      exact frozen.represents.heads actor

theorem foldl_addToSubgraph (hashes : List EntryHash) {entries kept : List Entry}
    (stored : ∀ entry ∈ entries, journal.get entry.id = some entry) (frozen : sub.Frozen kept) :
    ((entries.map (·.id)).foldl (journal.addToSubgraph hashes) sub).Frozen
      (kept ++ restricted entries hashes) := by
  induction entries generalizing kept sub with
  | nil =>
    rw [restricted, filter_nil, append_nil]
    exact frozen
  | cons entry entries ih =>
    obtain ⟨found, stored⟩ := forall_mem_cons.mp stored
    rw [map_cons, foldl_cons, addToSubgraph, found, restricted]
    by_cases selected : entry.id ∈ hashes
    · rw [if_pos selected, filter_cons_of_pos (by simpa using selected)]
      have rest := ih stored (frozen.insert entry)
      rwa [append_assoc] at rest
    · rw [if_neg selected, filter_cons_of_neg (by simpa using selected)]
      exact ih stored frozen

theorem subgraph_eq (represents : journal.Represents history) (distinct : journal.ids.Nodup)
    (hashes : List EntryHash) :
    ∃ sub, journal.subgraph hashes = .ok sub ∧ sub.Represents (restricted history hashes) := by
  have frozen := foldl_addToSubgraph hashes (fun entry member => represents.get_of_nodup distinct member)
    (⟨represents_new, rfl, rfl⟩ : Journal.new.Frozen [])
  rw [nil_append, ← represents.ids] at frozen
  exact ⟨_, rfl, frozen.represents⟩

/-- The ids contain the parents of the entries they select. -/
def BackwardClosed (history : List Entry) (hashes : List EntryHash) : Prop :=
  ∀ parent entry, History.Parent history parent entry → entry.id ∈ hashes → parent.id ∈ hashes

theorem BackwardClosed.past (closed : BackwardClosed history hashes)
    {earlier later : Entry} (past : ReflTransGen (History.Parent history) earlier later)
    (selected : later.id ∈ hashes) : earlier.id ∈ hashes := by
  induction past with
  | refl => exact selected
  | tail _ link ih => exact ih (closed _ _ link selected)

theorem Built.past_of_actor {before after : List Entry} {entry earlier : Entry}
    (built : Built blake3 (before ++ entry :: after))
    (distinct : ((before ++ entry :: after).map (·.id)).Nodup)
    (small : (before ++ entry :: after).length < 2 ^ 64) (member : earlier ∈ before)
    (same : earlier.data.actor = entry.data.actor) :
    ReflTransGen (History.Parent (before ++ entry :: after)) earlier entry := by
  obtain ⟨_, _, _, _, _, shorter, represents, prepared⟩ := built.prepared rfl
  have part : (before ++ [entry]).Sublist (before ++ entry :: after) := by simp
  have grown := (shorter.snoc represents prepared).grown
  have causal := (grown.causal (grown.collisionFree (distinct.sublist (part.map _)))
    (part.length_le.trans_lt small)).1
  have last : lastOf (before ++ [entry]) earlier.data.actor = some entry := by
    rw [lastOf_append_singleton, if_pos same]
  have past := causal.past_lastOf (mem_append_left _ member) last
  exact past.lift id fun _ _ link => ⟨part.subset link.1, part.subset link.2.1, link.2.2⟩

/-- Cutting a history to a backward closed part leaves every entry where it was in the sequence of
its actor, with all its parents. -/
theorem restricted_fits (built : Built blake3 history)
    (distinct : (history.map (·.id)).Nodup) (small : history.length < 2 ^ 64)
    (closed : BackwardClosed history hashes) (represents : sub.Represents (restricted history hashes))
    {before after : List Entry} (split : restricted history hashes = before ++ entry :: after) :
    JournalCorrectnessMonitor.Fits sub before entry := by
  obtain ⟨front, rest, rfl, frontKept, restKept⟩ := filter_eq_append_iff.mp split
  obtain ⟨skipped, later, rfl, outside, selected, _⟩ := filter_eq_cons_iff.mp restKept
  have selected : entry.id ∈ hashes := of_decide_eq_true selected
  have kept : restricted (front ++ skipped) hashes = before := by
    rw [restricted, filter_append, frontKept, filter_eq_nil_iff.mpr outside, append_nil]
  rw [← append_assoc] at built distinct small closed represents
  obtain ⟨journal, _, _, _, _, shorter, known, prepared⟩ := built.prepared rfl
  have part : (front ++ skipped).Sublist (front ++ skipped ++ entry :: later) :=
    sublist_append_left _ _
  obtain ⟨causal, numbered⟩ := shorter.grown.causal
    (shorter.grown.collisionFree (distinct.sublist (part.map _))) (part.length_le.trans_lt small)
  have extended := (prepareAppend_eq_ok prepared).1
  obtain ⟨clock, merged, incremented⟩ := prepareAppend_clock prepared
  refine ⟨?_, clock, ?_, incremented⟩
  · rw [extended_sequence known extended causal numbered (part.length_le.trans_lt small), ← kept,
      countOf, countOf, restricted, countP_filter]
    refine countP_congr fun earlier member => ?_
    simp only [Bool.and_eq_true, decide_eq_true_eq]
    refine ⟨fun same => ⟨same, ?_⟩, And.left⟩
    exact closed.past (built.past_of_actor distinct small member same) selected
  · rw [← merged]
    refine mergeParents_congr fun id listed => ?_
    obtain ⟨parent, member, rfl⟩ := extended_parents known extended id listed
    have linked : parent.id ∈ hashes :=
      closed parent entry ⟨part.subset member, by simp, listed⟩ selected
    have inside : parent ∈ restricted (front ++ skipped ++ entry :: later) hashes :=
      mem_filter.mpr ⟨part.subset member, decide_eq_true linked⟩
    rw [known.get, causal.find_self member, represents.get]
    exact find_of_nodup (distinct.sublist (filter_sublist.map _)) inside

/-! ## Slices -/

/-- The ids of the entries with a property, in append order, each of them once. -/
structure Lists (journal : Journal) (selects : Entry → Prop) (ids : List EntryHash) : Prop where
  ordered : ids.Sublist journal.ids
  distinct : ids.Nodup
  exact : ∀ id, id ∈ ids ↔ ∃ entry ∈ journal.entries, entry.id = id ∧ selects entry

/-- The clock of the entry happens before or equals that of a target. -/
def Below (journal : Journal) (targets : List EntryHash) (entry : Entry) : Prop :=
  ∃ target ∈ journal.entries, target.id ∈ targets ∧
    entry.vectorClock.happensBeforeOrEqual target.vectorClock = true

theorem lists_filter (distinct : journal.ids.Nodup) {marked : List EntryHash} {selects : Entry → Prop}
    (exact : ∀ entry ∈ journal.entries, entry.id ∈ marked ↔ selects entry)
    (entries : journal.entries.map (·.id) = journal.ids) :
    journal.Lists selects (journal.ids.filter (· ∈ marked)) where
  ordered := filter_sublist
  distinct := distinct.filter _
  exact id := by
    rw [← entries, mem_filter, mem_map, decide_eq_true_eq]
    constructor
    · rintro ⟨⟨entry, member, rfl⟩, selected⟩
      exact ⟨entry, member, rfl, (exact entry member).mp selected⟩
    · rintro ⟨entry, member, rfl, selected⟩
      exact ⟨⟨entry, member, rfl⟩, (exact entry member).mpr selected⟩

section Cut

variable (represents : journal.Represents history) (causal : History.Causal history)
  (distinct : journal.ids.Nodup)
include represents causal distinct

theorem causalSlice_lists (present : ∀ target ∈ targets, (journal.get target).isSome) :
    ∃ slice, journal.causalSlice targets = .ok slice ∧ journal.Lists (journal.Below targets) slice := by
  have entries := represents.entries causal
  refine ⟨_, causalSlice_of_present present, lists_filter distinct (fun entry member => ?_) ?_⟩
  · rw [entries] at member
    rw [mem_backward_iff, Below, entries]
    constructor
    · rintro ⟨target, selected, leads⟩
      obtain ⟨found, known⟩ := Option.isSome_iff_exists.mp (present target selected)
      rw [represents.get] at known
      obtain ⟨listed, rfl⟩ := find_eq_some known
      obtain ⟨other, otherMember, same, past⟩ := (represents.leads_iff causal listed _).mp leads
      rw [represents.ids] at distinct
      obtain rfl := inj_on_of_nodup_map distinct otherMember member same
      exact ⟨found, listed, selected, (causal_iff_clock causal member listed).mp past⟩
    · rintro ⟨target, listed, selected, below⟩
      have past := (causal_iff_clock causal member listed).mpr below
      exact ⟨target.id, selected, (represents.leads_iff causal listed _).mpr ⟨entry, member, rfl, past⟩⟩
  · rw [entries, represents.ids]

theorem forwardCone_lists (sources : List EntryHash) : journal.Lists
      (fun entry => entry.id ∈ sources ∨ ∃ source ∈ journal.entries, source.id ∈ sources ∧
        TransGen journal.ParentLink source entry)
      (journal.forwardCone sources) := by
  have entries := represents.entries causal
  have links : journal.ParentLink = History.Parent history := by
    funext parent entry
    simp only [ParentLink, History.Parent, entries]
  refine lists_filter distinct (fun entry member => ?_) (by rw [entries, represents.ids])
  rw [entries] at member
  rw [entries, links, mem_affected_iff causal]
  refine or_congr_right ⟨?_, fun descends => ⟨entry, member, rfl, descends⟩⟩
  rintro ⟨other, otherMember, same, descends⟩
  rw [represents.ids] at distinct
  obtain rfl := inj_on_of_nodup_map distinct otherMember member same
  exact descends

end Cut

theorem Lists.backwardClosed (represents : journal.Represents history)
    (causal : History.Causal history) {targets slice : List EntryHash}
    (lists : journal.Lists (journal.Below targets) slice) : BackwardClosed history slice := by
  have entries := represents.entries causal
  intro parent entry link selected
  obtain ⟨other, otherMember, same, target, listed, chosen, below⟩ := (lists.exact entry.id).mp selected
  rw [entries] at otherMember listed
  have found := represents.get_self causal otherMember
  rw [same, represents.get_self causal link.2.1] at found
  obtain rfl := Option.some.inj found
  have past := (causal_iff_clock causal otherMember listed).mpr below
  refine (lists.exact parent.id).mpr ⟨parent, entries ▸ link.1, rfl, target, entries ▸ listed, chosen, ?_⟩
  exact (causal_iff_clock causal link.1 listed).mp (.head link past)

theorem audit_subgraph (built : Built blake3 history) (represents : journal.Represents history)
    (distinct : (history.map (·.id)).Nodup)
    (small : history.length < 2 ^ 64) (closed : BackwardClosed history hashes) :
    ∃ sub, journal.subgraph hashes = .ok sub ∧ ∀ issue ∈ JournalCorrectnessMonitor.audit sub,
      ∃ entryId expected actual, issue = .parentKindMismatch entryId expected actual := by
  obtain ⟨sub, cut, represented⟩ := subgraph_eq represents (represents.ids ▸ distinct) hashes
  have part : (restricted history hashes).Sublist history := filter_sublist
  have entries : sub.entries = restricted history hashes := by
    refine represented.entries_of_nodup ?_
    rw [represented.ids]
    exact distinct.sublist (part.map _)
  refine ⟨sub, cut, JournalCorrectnessMonitor.audit_of_fits ?_ fun before entry after split => ?_⟩
  · rw [entries]
    exact part.length_le.trans_lt small
  · rw [entries] at split
    exact restricted_fits built distinct small closed represented split

/-- Slicing a journal without a hash collision. The slice of present targets lists what the clocks
put below them, and is a journal of its own as far as the audit of sequences, parents and clocks
goes; the forward cone lists the present sources and their descendants; closing a slice forward
slices backward from its cone. -/
theorem reached_slices (reached : Reached blake3 journal)
    (distinct : journal.ids.Nodup) (small : journal.len < 2 ^ 64)
    (present : ∀ target ∈ targets, (journal.get target).isSome) :
    (∃ slice closed sub, journal.causalSlice targets = .ok slice ∧ journal.Lists (journal.Below targets) slice ∧
      journal.causalSliceForward targets = .ok closed ∧
      journal.Lists (journal.Below (journal.forwardCone slice)) closed ∧
      journal.subgraph slice = .ok sub ∧ ∀ issue ∈ JournalCorrectnessMonitor.audit sub,
        ∃ entryId expected actual, issue = .parentKindMismatch entryId expected actual) ∧
    ∀ sources, journal.Lists
      (fun entry => entry.id ∈ sources ∨ ∃ source ∈ journal.entries, source.id ∈ sources ∧
        TransGen journal.ParentLink source entry)
      (journal.forwardCone sources) := by
  obtain ⟨history, built, represents⟩ := reached.built
  have length : history.length < 2 ^ 64 := represents.len_eq ▸ small
  have unrepeated : (history.map (·.id)).Nodup := represents.ids ▸ distinct
  have causal := (built.grown.causal (built.grown.collisionFree unrepeated) length).1
  have cones := forwardCone_lists represents causal distinct
  obtain ⟨slice, sliced, lists⟩ := causalSlice_lists represents causal distinct present
  have stored : ∀ id ∈ journal.forwardCone slice, (journal.get id).isSome := by
    intro id member
    obtain ⟨entry, listed, rfl, _⟩ := ((cones slice).exact id).mp member
    rw [represents.entries causal] at listed
    rw [represents.get_self causal listed]
    rfl
  obtain ⟨closed, closes, closedLists⟩ := causalSlice_lists represents causal distinct stored
  obtain ⟨sub, cut, audited⟩ := audit_subgraph built represents unrepeated length
    (lists.backwardClosed represents causal)
  refine ⟨⟨slice, closed, sub, sliced, lists, ?_, closedLists, cut, audited⟩, cones⟩
  rw [causalSliceForward, sliced]
  exact closes

theorem exchange_sliced : ∃ slice, exchange.causalSlice [receiver.id] = .ok slice ∧
    slice.Nodup ∧ sender.id ∈ slice := by
  have apart : sender.id ≠ receiver.id := by decide +kernel
  have distinct : exchange.ids.Nodup := by
    have ids : exchange.ids = [sender.id, receiver.id] := rfl
    simpa [ids] using apart
  have senderFound : exchange.get sender.id = some sender := by
    rw [exchange, get_insert, if_neg apart, get_insert, if_pos rfl]
  have receiverFound : exchange.get receiver.id = some receiver := by
    rw [exchange, get_insert, if_pos rfl]
  have listed {id : EntryHash} {entry : Entry} (known : id ∈ exchange.ids)
      (found : exchange.get id = some entry) : entry ∈ exchange.entries :=
    mem_filterMap.mpr ⟨id, known, found⟩
  obtain ⟨⟨slice, _, _, sliced, lists, _⟩, _⟩ := reached_slices exchange_reachable.reached distinct
    (by decide) (forall_mem_singleton.mpr (by rw [receiverFound]; rfl))
  refine ⟨slice, sliced, lists.distinct, (lists.exact sender.id).mpr
    ⟨sender, listed (by simp [exchange]) senderFound, rfl,
      receiver, listed (by simp [exchange]) receiverFound, mem_singleton_self _, ?_⟩⟩
  decide +kernel

end Journal

end Ldgr
