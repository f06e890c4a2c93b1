import Mathlib

/-! Logs of events with parent links, in which the events of one actor form a chain. Clocks that
take the least upper bound over the parents and count one more event of their own actor count the
causal history of each event, so their pointwise order is the causal order. -/

namespace Ldgr.Base

open Relation (ReflTransGen)

structure CausalLog (ε α : Type) where
  events : Set ε
  parent : ε → ε → Prop
  actor : ε → α
  rank : ε → ℕ
  finite : events.Finite
  closed : ∀ {earlier later}, parent earlier later → earlier ∈ events
  ranked : ∀ {earlier later}, parent earlier later → rank earlier < rank later
  chain : ∀ {first second}, first ∈ events → second ∈ events → actor first = actor second →
    ReflTransGen parent first second ∨ ReflTransGen parent second first

namespace CausalLog

variable {ε α : Type} (log : CausalLog ε α)

/-- The reflexive causal order. -/
def Past (earlier later : ε) : Prop :=
  ReflTransGen log.parent earlier later

/-- The events of one actor in the reflexive causal history of `event`. -/
def history (event : ε) (actor : α) : Set ε :=
  {earlier | log.Past earlier event ∧ log.actor earlier = actor}

/-- The part of that history which comes through the parents of `event`. -/
def inherited (event : ε) (actor : α) : Set ε :=
  {earlier | ∃ parent, log.parent parent event ∧ earlier ∈ log.history parent actor}

noncomputable def count (event : ε) (actor : α) : ℕ :=
  (log.history event actor).ncard

variable {log}

variable {earlier later : ε} {event : ε}

theorem Past.mem (past : log.Past earlier later) (member : later ∈ log.events) : earlier ∈ log.events := by
  obtain same | ⟨next, linked, _⟩ := ReflTransGen.cases_head past
  · exact same ▸ member
  · exact log.closed linked

theorem Past.eq_or_rank_lt (past : log.Past earlier later) :
    earlier = later ∨ log.rank earlier < log.rank later := by
  induction past with
  | refl => exact .inl rfl
  | @tail between later _ linked ih =>
    have step := log.ranked linked
    obtain same | below := ih
    · exact .inr (same ▸ step)
    · exact .inr (below.trans step)

theorem history_finite (member : event ∈ log.events) (actor : α) : (log.history event actor).Finite :=
  log.finite.subset fun _ ⟨past, _⟩ => past.mem member

theorem history_mono (past : log.Past earlier later) (actor : α) :
    log.history earlier actor ⊆ log.history later actor :=
  fun _ ⟨before, acts⟩ => ⟨before.trans past, acts⟩

theorem count_mono (past : log.Past earlier later)
    (member : later ∈ log.events) (actor : α) : log.count earlier actor ≤ log.count later actor :=
  Set.ncard_le_ncard (history_mono past actor) (history_finite member actor)

theorem inherited_subset (event : ε) (actor : α) : log.inherited event actor ⊆ log.history event actor :=
  fun _ ⟨_, linked, ⟨past, acts⟩⟩ => ⟨past.tail linked, acts⟩

/-- What the parents bring together, the one furthest along the actor's chain brings alone. -/
theorem exists_parent_history_eq {actor : α} (member : event ∈ log.events)
    (nonempty : (log.inherited event actor).Nonempty) :
    ∃ parent, log.parent parent event ∧ log.inherited event actor = log.history parent actor := by
  have finite := (history_finite member actor).subset (inherited_subset event actor)
  obtain ⟨latest, ⟨parent, linked, latestPast, latestActs⟩, maximal⟩ :=
    Set.exists_max_image _ log.rank finite nonempty
  refine ⟨parent, linked, Set.Subset.antisymm ?_ fun earlier before => ⟨parent, linked, before⟩⟩
  intro earlier inherited
  obtain ⟨other, otherLinked, past, acts⟩ := id inherited
  have comparable := log.chain (past.mem (log.closed otherLinked))
    (latestPast.mem (log.closed linked)) (acts.trans latestActs.symm)
  obtain before | after := comparable
  · exact ⟨ReflTransGen.trans before latestPast, acts⟩
  · obtain same | below := Past.eq_or_rank_lt after
    · exact ⟨same ▸ latestPast, acts⟩
    · exact absurd (maximal earlier inherited) (not_le.mpr below)

theorem isLUB_inherited (member : event ∈ log.events) (actor : α) :
    IsLUB (Set.image (log.count · actor) {parent | log.parent parent event})
      (log.inherited event actor).ncard := by
  constructor
  · intro value ⟨parent, linked, counted⟩
    have finite := (history_finite member actor).subset (inherited_subset event actor)
    exact counted ▸ Set.ncard_le_ncard (fun earlier before => ⟨parent, linked, before⟩) finite
  · intro bound above
    obtain empty | nonempty := (log.inherited event actor).eq_empty_or_nonempty
    · simp [empty]
    · obtain ⟨parent, linked, same⟩ := exists_parent_history_eq member nonempty
      exact same ▸ above ⟨parent, linked, rfl⟩

theorem self_not_inherited (event : ε) (actor : α) : event ∉ log.inherited event actor := by
  intro ⟨parent, linked, past, _⟩
  have step := log.ranked linked
  obtain same | below := past.eq_or_rank_lt
  · exact absurd step (same ▸ lt_irrefl _)
  · exact absurd (below.trans step) (lt_irrefl _)

theorem history_eq [DecidableEq α] (event : ε) (actor : α) : log.history event actor =
      if log.actor event = actor then insert event (log.inherited event actor)
      else log.inherited event actor := by
  have split (earlier : ε) : earlier ∈ log.history event actor ↔
      earlier = event ∧ log.actor event = actor ∨ earlier ∈ log.inherited event actor := by
    constructor
    · intro ⟨past, acts⟩
      obtain same | ⟨parent, before, linked⟩ := ReflTransGen.cases_tail past
      · exact .inl ⟨same.symm, same ▸ acts⟩
      · exact .inr ⟨parent, linked, before, acts⟩
    · intro found
      obtain ⟨same, acts⟩ | inherited := found
      · subst same
        exact ⟨.refl, acts⟩
      · exact inherited_subset event actor inherited
  ext earlier
  rw [split earlier]
  split_ifs with acts
  · simp [acts]
  · simp [acts]

theorem count_eq [DecidableEq α] (member : event ∈ log.events) (actor : α) : log.count event actor =
      (log.inherited event actor).ncard + if log.actor event = actor then 1 else 0 := by
  have finite := (history_finite member actor).subset (inherited_subset event actor)
  rw [count, history_eq]
  split_ifs with acts
  · exact Set.ncard_insert_of_notMem (self_not_inherited event actor) finite
  · rfl

theorem past_of_count_le (earlierMember : earlier ∈ log.events) (laterMember : later ∈ log.events)
    (below : log.count earlier (log.actor earlier) ≤ log.count later (log.actor earlier)) :
    log.Past earlier later := by
  by_contra apart
  -- Otherwise the later history is a proper part of the actor's chain up to `earlier`.
  have proper : log.history later (log.actor earlier) ⊂ log.history earlier (log.actor earlier) := by
    refine Set.ssubset_iff_exists.mpr ⟨?_, earlier, ⟨.refl, rfl⟩, fun ⟨past, _⟩ => apart past⟩
    intro event ⟨past, acts⟩
    obtain before | after := log.chain (past.mem laterMember) earlierMember acts
    · exact ⟨before, acts⟩
    · exact absurd (ReflTransGen.trans after past) apart
  exact absurd below (not_le.mpr (Set.ncard_lt_ncard proper (history_finite earlierMember _)))

/-! ## Clocks -/

/-- The clock rule: the least upper bound over the parents, and one more for the own actor. -/
def Stamps [DecidableEq α] (log : CausalLog ε α) (stamp : ε → α → ℕ) : Prop :=
  ∀ event ∈ log.events, ∀ actor, ∃ bound,
    IsLUB (Set.image (stamp · actor) {parent | log.parent parent event}) bound ∧
      stamp event actor = bound + if log.actor event = actor then 1 else 0

variable [DecidableEq α] {stamp : ε → α → ℕ}

theorem Stamps.eq_count (stamps : log.Stamps stamp) (member : event ∈ log.events)
    (actor : α) : stamp event actor = log.count event actor := by
  induction rank : log.rank event using Nat.strong_induction_on generalizing event with
  | _ bound ih =>
    obtain ⟨joined, least, stamped⟩ := stamps event member actor
    have parents : Set.image (stamp · actor) {parent | log.parent parent event} =
        Set.image (log.count · actor) {parent | log.parent parent event} := by
      refine Set.image_congr fun parent linked => ?_
      exact ih _ (rank ▸ log.ranked linked) (log.closed linked) rfl
    rw [stamped, count_eq member, least.unique (parents ▸ isLUB_inherited member actor)]

theorem Stamps.past_iff (stamps : log.Stamps stamp)
    (earlierMember : earlier ∈ log.events) (laterMember : later ∈ log.events) :
    log.Past earlier later ↔ ∀ actor, stamp earlier actor ≤ stamp later actor := by
  simp only [stamps.eq_count earlierMember, stamps.eq_count laterMember]
  exact ⟨fun past actor => count_mono past laterMember actor,
    fun below => past_of_count_le earlierMember laterMember (below _)⟩

end CausalLog

end Ldgr.Base
