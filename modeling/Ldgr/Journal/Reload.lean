import Ldgr.Journal.Causality
import Ldgr.Journal.Persistent
import Ldgr.Journal.Segment.FileProperties

/-! Reloading: appending the entries of a journal again, in order, gives the journal back. -/

namespace Ldgr

open Base Format Journal

theorem Journal.Represents.unique {journal other : Journal} {history : List Entry}
    (represents : journal.Represents history) (otherRepresents : other.Represents history) :
    journal.Agrees other where
  ids := represents.ids.trans otherRepresents.ids.symm
  get := funext fun id => (represents.get id).trans (otherRepresents.get id).symm
  heads := funext fun actor => (represents.heads actor).trans (otherRepresents.heads actor).symm

namespace PersistentJournal

variable {host : Host}

theorem replayEntry_of_prepared {journal : Journal} {entry : Entry}
    (prepared : journal.prepareAppend host.blake3 entry.data.kind entry.data.actor
      entry.data.parents entry.data.payload = .ok entry) :
    replayEntry host entry journal = (.ok (), (journal.insert entry entry.data.actor).freezeIfFull false) := by
  have agrees := freezeIfFull_agrees false (journal.insert entry entry.data.actor)
  have stored : ((journal.insert entry entry.data.actor).freezeIfFull false).get entry.id =
      some entry := by
    rw [congrFun agrees.get, get_insert, if_pos rfl]
  refine (Action.bind_of_ok (append_of_ok false prepared)).trans ?_
  rw [if_neg (not_not_intro rfl)]
  refine (Action.get_bind _ _).trans ?_
  simp only [stored, ne_eq, not_true_eq_false, if_false, Action.pure_apply]

theorem forM_replayEntry {history : List Entry} (built : Journal.Built host.blake3 history) :
    ∃ replayed, history.forM (replayEntry host) new = (.ok (), replayed) ∧
      replayed.Represents history := by
  induction built with
  | nil => exact ⟨new, rfl, represents_new⟩
  | @snoc journal history kind actor observed payload entry _ represents prepared ih =>
    obtain ⟨replayed, replays, represented⟩ := ih
    have again := prepareAppend_again prepared
    rw [(represents.unique represented).prepareAppend] at again
    refine ⟨_, (Action.forM_append_of_ok replays).trans (Action.bind_of_ok (replayEntry_of_prepared again)), ?_⟩
    exact (represented.insert entry).agrees (freezeIfFull_agrees false _)

/-- Every journal that calls lead to without a repeated id is rebuilt from its entries. -/
theorem replay_reached {journal : Journal} (reached : Journal.Reached host.blake3 journal)
    (distinct : journal.ids.Nodup) :
    ∃ replayed, replay host journal.entries = .ok replayed ∧ replayed.Agrees journal ∧
      replayed.entries = journal.entries ∧
      replayed.rootHash host.blake3 = journal.rootHash host.blake3 := by
  obtain ⟨history, built, represents⟩ := reached.built
  obtain ⟨replayed, replays, represented⟩ := forM_replayEntry built
  have agrees := represented.unique represents
  refine ⟨replayed, ?_, agrees, agrees.entries, agrees.rootHash host.blake3⟩
  rw [replay, represents.entries_of_nodup distinct, replays]

theorem exchange_replayed : ∃ replayed, replay plainHost exchange.entries = .ok replayed ∧
    replayed.Agrees exchange ∧ replayed.entries = exchange.entries ∧
    replayed.rootHash checksum = exchange.rootHash checksum :=
  @replay_reached plainHost _ exchange_reachable.reached (by decide +kernel)

end PersistentJournal

end Ldgr
