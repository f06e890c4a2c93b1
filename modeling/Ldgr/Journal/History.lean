import Ldgr.Base.CausalLog
import Ldgr.Journal.DagProperties

/-! Histories: the entries of a journal as a plain list in append order, with what each entry owes
to the ones before it. Every such list is a causal log whose clocks are the entries' own. -/

namespace Ldgr

open Base Format Relation List

namespace History

/-- A later entry hides an earlier one with the same id, as it does in the journal's maps. -/
def find (history : List Entry) (id : EntryHash) : Option Entry :=
  history.reverse.find? (·.id = id)

def lastOf (history : List Entry) (actor : ActorId) : Option Entry :=
  history.reverse.find? (·.data.actor = actor)

def countOf (history : List Entry) (actor : ActorId) : Nat :=
  history.countP (·.data.actor = actor)

theorem find_append_singleton (history : List Entry) (entry : Entry) (id : EntryHash) :
    find (history ++ [entry]) id = if id = entry.id then some entry else find history id := by
  simp only [find, reverse_append, reverse_singleton, singleton_append, List.find?_cons, eq_comm (a := id)]
  by_cases same : entry.id = id <;> simp [same]

theorem lastOf_append_singleton (history : List Entry) (entry : Entry) (actor : ActorId) :
    lastOf (history ++ [entry]) actor =
      if actor = entry.data.actor then some entry else lastOf history actor := by
  simp only [lastOf, reverse_append, reverse_singleton, singleton_append, List.find?_cons, eq_comm (a := actor)]
  by_cases same : entry.data.actor = actor <;> simp [same]

theorem countOf_append_singleton (history : List Entry) (entry : Entry) (actor : ActorId) :
    countOf (history ++ [entry]) actor = countOf history actor + if entry.data.actor = actor then 1 else 0 := by
  simp [countOf, countP_append, countP_singleton]

variable {history : List Entry} {entry : Entry} {earlier later : Entry}

theorem find_eq_some {id : EntryHash}
    (found : find history id = some entry) : entry ∈ history ∧ entry.id = id := by
  refine ⟨mem_reverse.mp (mem_of_find?_eq_some found), ?_⟩
  simpa using List.find?_some found

theorem lastOf_eq_some {actor : ActorId}
    (last : lastOf history actor = some entry) : entry ∈ history ∧ entry.data.actor = actor := by
  refine ⟨mem_reverse.mp (mem_of_find?_eq_some last), ?_⟩
  simpa using List.find?_some last

theorem lastOf_eq_none {actor : ActorId} (none : lastOf history actor = none) : countOf history actor = 0 := by
  simpa [lastOf, countOf, countP_eq_zero] using none

theorem exists_lastOf (member : entry ∈ history) : ∃ last, lastOf history entry.data.actor = some last := by
  rw [← Option.isSome_iff_exists, lastOf, List.find?_isSome]
  exact ⟨entry, mem_reverse.mpr member, by simp⟩

theorem countOf_le_length (history : List Entry) (actor : ActorId) : countOf history actor ≤ history.length :=
  countP_le_length

/-! ## Causal histories -/

def Parent (history : List Entry) (parent entry : Entry) : Prop :=
  parent ∈ history ∧ entry ∈ history ∧ parent.id ∈ entry.data.parents

/-- What a new entry owes to the history it is appended to. -/
structure Follows (history : List Entry) (entry : Entry) : Prop where
  fresh : ∀ earlier ∈ history, earlier.id ≠ entry.id
  parents : ∀ id ∈ entry.data.parents, ∃ parent ∈ history, parent.id = id
  chained : ∀ last, lastOf history entry.data.actor = some last → last.id ∈ entry.data.parents
  clock : ∀ actor, ∃ bound, IsLUB (Set.image (fun parent : Entry => (parent.vectorClock.get actor).toNat)
      {parent | parent ∈ history ∧ parent.id ∈ entry.data.parents}) bound ∧
    (entry.vectorClock.get actor).toNat = bound + if entry.data.actor = actor then 1 else 0

inductive Causal : List Entry → Prop where
  | nil : Causal []
  | snoc {history : List Entry} {entry : Entry} :
      Causal history → Follows history entry → Causal (history ++ [entry])

theorem Causal.parents (causal : Causal history)
    (member : entry ∈ history) : ∀ id ∈ entry.data.parents, ∃ parent ∈ history, parent.id = id := by
  induction causal with
  | nil => simp at member
  | @snoc history newest _ follows ih =>
    intro id listed
    obtain ⟨parent, parentMember, same⟩ : ∃ parent ∈ history, parent.id = id := by
      obtain old | new := mem_append.mp member
      · exact ih old id listed
      · exact follows.parents id (mem_singleton.mp new ▸ listed)
    exact ⟨parent, mem_append_left _ parentMember, same⟩

theorem parent_append_singleton (causal : Causal history)
    (follows : Follows history entry) (earlier later : Entry) :
    Parent (history ++ [entry]) earlier later ↔ Parent history earlier later ∨
      earlier ∈ history ∧ later = entry ∧ earlier.id ∈ entry.data.parents := by
  have old : ∀ other ∈ history ++ [entry], (∃ known ∈ history, known.id = other.id) → other ∈ history := by
    intro other member ⟨known, knownMember, same⟩
    obtain inside | new := mem_append.mp member
    · exact inside
    · rw [mem_singleton.mp new] at same
      exact absurd same (follows.fresh known knownMember)
  constructor
  · intro ⟨earlierMember, laterMember, listed⟩
    obtain inside | new := mem_append.mp laterMember
    · exact .inl ⟨old earlier earlierMember (causal.parents inside _ listed), inside, listed⟩
    · obtain rfl := mem_singleton.mp new
      exact .inr ⟨old earlier earlierMember (follows.parents _ listed), rfl, listed⟩
  · intro linked
    obtain ⟨earlierMember, laterMember, listed⟩ | ⟨earlierMember, rfl, listed⟩ := linked
    · exact ⟨mem_append_left _ earlierMember, mem_append_left _ laterMember, listed⟩
    · exact ⟨mem_append_left _ earlierMember, by simp, listed⟩

theorem Parent.append_singleton (linked : Parent history earlier later) (entry : Entry) :
    Parent (history ++ [entry]) earlier later :=
  ⟨mem_append_left _ linked.1, mem_append_left _ linked.2.1, linked.2.2⟩

theorem past_append_singleton (entry : Entry) (past : ReflTransGen (Parent history) earlier later) :
    ReflTransGen (Parent (history ++ [entry])) earlier later :=
  past.lift id fun _ _ linked => linked.append_singleton entry

theorem Causal.past_lastOf (causal : Causal history) {entry last : Entry}
    (member : entry ∈ history) (found : lastOf history entry.data.actor = some last) :
    ReflTransGen (Parent history) entry last := by
  induction causal generalizing last with
  | nil => simp at member
  | @snoc history newest causal follows ih =>
    rw [lastOf_append_singleton] at found
    obtain old | new := mem_append.mp member
    · split_ifs at found with same
      · obtain rfl := Option.some.inj found
        obtain ⟨previous, present⟩ := exists_lastOf old
        have listed := follows.chained previous (same ▸ present)
        have previousMember := (lastOf_eq_some present).1
        refine (past_append_singleton newest (ih old present)).tail ?_
        exact ⟨mem_append_left _ previousMember, by simp, listed⟩
      · exact past_append_singleton newest (ih old found)
    · obtain rfl := mem_singleton.mp new
      obtain rfl := Option.some.inj ((if_pos rfl).symm.trans found)
      exact .refl

theorem Causal.chain (causal : Causal history) {first second : Entry}
    (firstMember : first ∈ history) (secondMember : second ∈ history)
    (same : first.data.actor = second.data.actor) :
    ReflTransGen (Parent history) first second ∨ ReflTransGen (Parent history) second first := by
  induction causal with
  | nil => simp at firstMember
  | @snoc history newest causal follows ih =>
    have last : lastOf (history ++ [newest]) newest.data.actor = some newest := by
      rw [lastOf_append_singleton, if_pos rfl]
    obtain firstOld | firstNew := mem_append.mp firstMember
    · obtain secondOld | secondNew := mem_append.mp secondMember
      · exact (ih firstOld secondOld).imp (past_append_singleton newest) (past_append_singleton newest)
      · obtain rfl := mem_singleton.mp secondNew
        exact .inl ((causal.snoc follows).past_lastOf firstMember (same ▸ last))
    · obtain rfl := mem_singleton.mp firstNew
      exact .inr ((causal.snoc follows).past_lastOf secondMember (same ▸ last))

def rank (history : List Entry) (entry : Entry) : Nat :=
  (history.map (·.id)).idxOf entry.id

theorem rank_append_singleton {earlier : Entry} (entry : Entry)
    (member : earlier ∈ history) : rank (history ++ [entry]) earlier = rank history earlier := by
  rw [rank, map_append, idxOf_append_of_mem (mem_map_of_mem member), rank]

theorem Causal.rank_lt (causal : Causal history)
    (linked : Parent history earlier later) : rank history earlier < rank history later := by
  induction causal with
  | nil => exact absurd linked.1 not_mem_nil
  | @snoc history newest causal follows ih =>
    obtain old | ⟨member, rfl, _⟩ := (parent_append_singleton causal follows _ _).mp linked
    · rw [rank_append_singleton newest old.1, rank_append_singleton newest old.2.1]
      exact ih old
    · have unlisted : later.id ∉ history.map (·.id) := by
        intro listed
        obtain ⟨known, knownMember, same⟩ := mem_map.mp listed
        exact follows.fresh known knownMember same
      rw [rank_append_singleton later member, rank, rank, map_append, idxOf_append_of_notMem unlisted]
      have below := idxOf_lt_length_of_mem (mem_map_of_mem (f := (·.id)) member)
      simpa using below

def Causal.log {history : List Entry} (causal : Causal history) : CausalLog Entry ActorId where
  events := {entry | entry ∈ history}
  parent := Parent history
  actor entry := entry.data.actor
  rank := rank history
  finite := history.finite_toSet
  closed linked := linked.1
  ranked linked := causal.rank_lt linked
  chain firstMember secondMember same := causal.chain firstMember secondMember same

theorem Causal.stamps (causal : Causal history) :
    causal.log.Stamps fun entry actor => (entry.vectorClock.get actor).toNat := by
  induction causal with
  | nil =>
    intro entry member
    exact absurd member not_mem_nil
  | @snoc history newest causal follows ih =>
    intro entry member actor
    have outside : newest ∉ history := fun inside => follows.fresh newest inside rfl
    obtain old | new := mem_append.mp member
    · obtain ⟨bound, least, stamped⟩ := ih entry old actor
      refine ⟨bound, ?_, stamped⟩
      have same : {parent | Parent (history ++ [newest]) parent entry} =
          {parent | Parent history parent entry} := by
        ext parent
        have apart : entry ≠ newest := fun equal => outside (equal ▸ old)
        simp [parent_append_singleton causal follows, apart]
      change IsLUB (Set.image _ {parent | Parent (history ++ [newest]) parent entry}) bound
      rw [same]
      exact least
    · obtain rfl := mem_singleton.mp new
      obtain ⟨bound, least, stamped⟩ := follows.clock actor
      refine ⟨bound, ?_, stamped⟩
      have same : {parent | Parent (history ++ [entry]) parent entry} =
          {parent | parent ∈ history ∧ parent.id ∈ entry.data.parents} := by
        ext parent
        have unlinked : ¬ Parent history parent entry := fun linked => outside linked.2.1
        simp [parent_append_singleton causal follows, unlinked]
      change IsLUB (Set.image _ {parent | Parent (history ++ [entry]) parent entry}) bound
      rw [same]
      exact least

end History

end Ldgr
