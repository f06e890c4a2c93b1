import Ldgr.Journal.Reload
import Ldgr.Sim.Replay

/-! The journal of a run: whatever is scheduled, injected or watched, entries were only appended to it. -/

namespace Ldgr.Sim

open Base Format Action Executor Relation PersistentJournal

section Rounds

variable (env : Environment)

theorem settle_records : (settle env).Relates (Records env) := by
  have wakes : (wakeBlockedWithMessages env).Relates (Records env) :=
    relates_get.bind fun _ => relates_forM fun task _ => relates_get.bind fun _ =>
      ((journalAppend_journaled env _ _ _ _).mono fun _ _ => Journaled.records).bind fun _ =>
        (relates_modify fun _ => .of_eq rfl rfl).bind fun _ => relates_modify fun _ => .of_eq rfl rfl
  have announces (fired : List TimerFired) (ids : List EntryHash) :
      (announceTimers env fired ids).Relates (Records env) := by
    fun_induction announceTimers env fired ids with
    | case1 fired rest timerId wakeId ids ih =>
      exact (relates_modify fun _ => .of_eq rfl rfl).bind fun _ =>
        (relates_modify fun _ => .of_eq rfl rfl).bind fun _ =>
          (relates_modify fun _ => .of_eq rfl rfl).bind fun _ => ih
    | case2 => exact relates_pure _
  have advances : (advanceQuiescent env).Relates (Records env) :=
    relates_get.bind fun world => (relates_modify fun _ => .of_eq rfl rfl).bind fun _ =>
      (relates_ite (relates_pure _) (((journalAppendBatch_journaled env _).mono fun _ _ => Journaled.records).bind
        (announces world.advance.1))).bind fun _ => wakes
  have delivers : (advanceToDelivery env).Relates (Records env) := by
    refine relates_get.bind fun _ => ?_
    split
    · exact relates_ite ((relates_modify fun _ => .of_eq rfl rfl).bind fun _ => wakes) (relates_pure _)
    · exact relates_pure _
  exact wakes.bind fun _ => relates_get.bind fun _ => relates_ite (relates_pure _) (advances.bind fun _ =>
    relates_get.bind fun _ => relates_ite (relates_pure _) (relates_ite (relates_pure _) (delivers.bind fun _ =>
      relates_get.bind fun _ => relates_ite (relates_pure _) (relates_pure _))))

theorem proceed_records (choice : Nat) : (proceed env choice).Relates (Records env) := by
  have polls (task : Nat) : (poll env task).Relates (Records env) := by
    intro before
    obtain ⟨step, after, polled, executed⟩ := poll_executed env task before
    rw [polled]
    cases executed with
    | kept same _ => exact same.records
    | slept same _ _ | waits same => exact same.records.trans (.of_eq rfl rfl)
  refine ((journalRngDraw_journaled env choice).mono fun _ _ => Journaled.records).mapError.bind fun _ =>
    Relates.bind (fun world => ?_) fun task => Relates.mapError (relates_get.bind fun _ => ?_)
  · unfold takeReady
    split <;> exact .of_eq rfl rfl
  · split
    · exact relates_pure _
    · refine relates_ite (relates_pure _) ((polls task).bind fun step =>
        (relates_modify fun world => ?_).bind fun _ => relates_pure _)
      unfold World.afterPoll
      split_ifs <;> exact .of_eq rfl rfl

/-- The journal came from an empty one by appends alone. -/
def Appended {μ : Type} (executor : Executor μ) : Prop :=
  Journal.Writes env.blake3 .new executor.world.journal

variable {μ : Type} (stepMonitor : Option (StepMonitor μ))

theorem worldly_appended {α : Type} {action : Action World RuntimeError α} (records : action.Relates (Records env)) :
    (worldly action : Action (Executor μ) RuntimeError α).Relates (Carries (Appended env)) :=
  records.zoom fun _ _ step known => IsTrans.trans _ _ _ known step.journal

theorem turn_appended : (turn env stepMonitor).Relates (Carries (Appended env)) := by
  refine relates_get.bind fun _ => Relates.bind
    ((worldly_appended env (settle_records env).mapError).bind fun settled => ?_) fun outcome => ?_
  · split
    · exact relates_pure _
    · refine Relates.bind (fun executor known => ?_) fun choice =>
        (worldly_appended env (proceed_records env choice)).bind fun _ =>
          (relates_modify fun _ known => known).bind fun _ => relates_pure _
      unfold chooseTask
      dsimp only
      split
      · exact known
      · split <;> exact known
  · split
    · exact relates_pure _
    · refine Relates.bind (fun _ known => known) fun action => ?_
      split
      · exact relates_pure _
      · refine (relates_modify fun executor known => ?_).bind fun _ => relates_pure _
        rw [Appended, (noted_unmoved executor).world]
        exact known

theorem drive_appended (maxSteps : Nat) : (Executor.drive env stepMonitor maxSteps).Relates (Carries (Appended env)) := by
  have loops (rounds : Nat) : (loop env stepMonitor maxSteps rounds).Relates (Carries (Appended env)) := by
    induction rounds with
    | zero => exact relates_pure _
    | succ rounds ih =>
      refine relates_get.bind fun _ => relates_ite ((turn_appended env stepMonitor).bind fun outcome => ?_) (relates_pure _)
      split
      · exact relates_pure _
      · exact ih
  have spawns : (journalSpawns env).Relates (Records env) := journalSpawns_journaled.mono fun _ _ => Journaled.records
  refine Relates.bind ((worldly_appended env spawns.mapError).bind fun _ =>
    relates_get.bind fun _ => relates_ite (relates_pure _) fun _ known => known) fun action => ?_
  split
  · exact relates_pure _
  · exact loops maxSteps

end Rounds

/-- The journal of every run, watched or not, in which no ids collide: clocks decide causality, and
appending its entries again gives it back. -/
theorem Simulation.run_journal {μ : Type} {features : Features} {host : SimHost} {simulation : Simulation features}
    {stepMonitor : Option (StepMonitor μ)} {monitor : μ} {result : RunResult} (disk : Host)
    (finished : finish (simulation.drive host stepMonitor monitor) = .ok result)
    (distinct : result.journal.ids.Nodup) (small : result.journal.len < 2 ^ 64) :
    (∀ first ∈ result.journal.entries, ∀ second ∈ result.journal.entries,
      (first.vectorClock.happensBeforeOrEqual second.vectorClock = true ↔
        ReflTransGen result.journal.ParentLink first second)) ∧
    ∃ replayed, replay { disk with blake3 := host.blake3 } result.journal.entries = .ok replayed ∧
      replayed.Agrees result.journal := by
  obtain ⟨outcome, executor, drives, _, _, rfl⟩ := finish_eq_ok.mp finished
  have appended := drive_appended (simulation.config.environment host) stepMonitor simulation.config.maxSteps.toNat
    (simulation.executor monitor) (Std.Refl.refl _)
  rw [show Executor.drive _ _ _ _ = _ from drives] at appended
  obtain ⟨history, gains⟩ := appended
  obtain ⟨built, represents⟩ := gains [] .nil Journal.represents_new
  have unrepeated : (history.map (·.id)).Nodup := represents.ids ▸ distinct
  have causal := (built.grown.causal (built.grown.collisionFree unrepeated) (represents.len_eq ▸ small)).1
  have entries : (executor.result outcome).journal.entries = history := represents.entries causal
  obtain ⟨replayed, replays, represented⟩ := @forM_replayEntry { disk with blake3 := host.blake3 } history built
  refine ⟨fun first firstMember second secondMember => ?_, replayed, ?_, represented.unique represents⟩
  · have links : (executor.result outcome).journal.ParentLink = History.Parent history := by
      funext parent entry
      simp only [Journal.ParentLink, History.Parent, entries]
    rw [links]
    exact (Journal.causal_iff_clock causal (entries ▸ firstMember) (entries ▸ secondMember)).symm
  · rw [replay, entries, replays]

theorem Simulation.pingPrograms_reloaded : ∃ result, (new (.default ⟨false⟩) pingPrograms).run plainHost = .ok result ∧
    result.journal.ids.Nodup ∧ ∃ replayed, replay Ldgr.plainHost result.journal.entries = .ok replayed ∧
      replayed.Agrees result.journal := by
  obtain ⟨result, runs, facts⟩ := okWith_eq_true.mp (show okWith (fun result =>
    result.journal.ids.Nodup ∧ result.journal.len < 2 ^ 64)
    ((new (.default ⟨false⟩) pingPrograms).run plainHost) = true by decide +kernel)
  obtain ⟨distinct, small⟩ := of_decide_eq_true facts
  exact ⟨result, runs, distinct, (run_journal Ldgr.plainHost runs distinct small).2⟩

end Ldgr.Sim
