import Ldgr.Sim.ExecutorProperties

/-! Replay: a run driven by recorded decisions goes through the worlds of the run that recorded them. -/

namespace Ldgr.Sim

open Base Format Action Executor Scheduler

/-! ## Decisions of the scheduler -/

namespace Scheduler

/-- The schedulers differ at most in how they rank tasks. -/
structure Alike (before after : Scheduler) : Prop where
  policy : after.policy = before.policy
  decisions : after.decisions = before.decisions
  replay : after.replay = before.replay
  strict : after.strict = before.strict
  violation : after.violation = before.violation

theorem Alike.refl (scheduler : Scheduler) : Alike scheduler scheduler :=
  ⟨rfl, rfl, rfl, rfl, rfl⟩

theorem Alike.trans {first second third : Scheduler} (left : Alike first second)
    (right : Alike second third) : Alike first third :=
  ⟨right.policy.trans left.policy, right.decisions.trans left.decisions,
    right.replay.trans left.replay, right.strict.trans left.strict,
    right.violation.trans left.violation⟩

theorem Alike.decided {before after : Scheduler} (alike : Alike before after) (choice : Nat) :
    Alike { before with decisions := before.decisions ++ [choice] }
      { after with decisions := after.decisions ++ [choice] } :=
  { alike with decisions := congrArg (· ++ [choice]) alike.decisions }

theorem informed_alike (scheduler : Scheduler) (emissions : List Emission) :
    Alike scheduler (scheduler.informed emissions) := by
  unfold informed
  split
  · clear * -
    induction emissions generalizing scheduler with
    | nil => exact .refl scheduler
    | cons emission rest ih =>
      have emitted : Alike scheduler (scheduler.onEntryEmitted emission) :=
        ⟨rfl, rfl, rfl, rfl, rfl⟩
      exact emitted.trans (ih _)
  · exact .refl scheduler

variable (draw : String → UInt64 → UInt64)

theorem selectPct_alike (ready : List Nat) (priorityChanges : Nat) (scheduler : Scheduler) :
    Alike scheduler (selectPct draw ready priorityChanges scheduler).2 := by
  unfold selectPct
  dsimp only
  split <;> exact ⟨rfl, rfl, rfl, rfl, rfl⟩

theorem selectFallback_alike (ready : List Nat) (step : Nat) (policy : Policy)
    (scheduler : Scheduler) : Alike scheduler (selectFallback draw ready step policy scheduler).2 := by
  unfold selectFallback
  split
  · exact .refl scheduler
  · exact .refl scheduler
  · exact .refl scheduler
  · exact selectPct_alike draw ready _ scheduler
  · dsimp only
    split <;> exact .refl scheduler

theorem select_alike (ready : List Nat) (step : Nat) (scheduler : Scheduler) :
    Alike scheduler (select draw ready step scheduler).2 := by
  unfold select
  split
  · split
    · exact .refl scheduler
    · exact selectFallback_alike draw ready step _ scheduler
  · exact selectFallback_alike draw ready step _ scheduler

variable {ready : List Nat} {step choice : Nat}

theorem chooseStrict_lawful {step : Nat} {scheduler : Scheduler}
    (lawful : (chooseStrict ready step scheduler).2.violation = none) :
    ∃ value, scheduler.replay[step]? = some value ∧
      chooseStrict ready step scheduler = (value, scheduler.record ready step value) := by
  unfold chooseStrict at lawful ⊢
  cases found : scheduler.replay[step]? with
  | none => simp [found] at lawful
  | some value =>
    by_cases outside : ready.length ≤ value
    · simp [found, outside] at lawful
    · exact ⟨value, rfl, by simp [outside]⟩

variable {scheduler after : Scheduler}

theorem choose_decisions (chooses : choose draw ready step scheduler = (some choice, after))
    (lawful : after.violation = none) :
    Alike { scheduler with decisions := scheduler.decisions ++ [choice] } after := by
  unfold choose at chooses
  split at chooses
  · cases strictly : chooseStrict ready step scheduler with
    | mk value between =>
      rw [strictly] at chooses
      cases chooses
      obtain ⟨_, _, takes⟩ := chooseStrict_lawful (by rw [strictly]; exact lawful)
      cases strictly.symm.trans takes
      exact ⟨rfl, rfl, rfl, rfl, rfl⟩
  · have alike := select_alike draw ready step scheduler
    split at chooses
    · cases chooses
    · rename_i selected between selects
      rw [selects] at alike
      cases chooses
      exact { alike.decided choice with }

theorem decided_alike {emitted : List Emission}
    (chooses : (scheduler.informed emitted).choose draw ready step = (some choice, after))
    (lawful : after.violation = none) :
    Alike { scheduler with decisions := scheduler.decisions ++ [choice] } after :=
  ((scheduler.informed_alike emitted).decided choice).trans (choose_decisions draw chooses lawful)

theorem choose_recorded {scheduler : Scheduler}
    (replays : scheduler.policy = .replay) (found : scheduler.replay[step]? = some choice)
    (inside : choice < ready.length) :
    choose draw ready step scheduler = (some choice, scheduler.record ready step choice) := by
  unfold choose
  split
  · rw [chooseStrict, found]
    simp [inside.not_ge]
  · have selects : select draw ready step scheduler = (some choice, scheduler) := by
      simp only [select, replays, found, Nat.mod_eq_of_lt inside]
    rw [selects]

theorem recorded_of_choose (replays : scheduler.policy = .replay) (strict : scheduler.strict = true)
    (chooses : choose draw ready step scheduler = (some choice, after))
    (lawful : after.violation = none) : scheduler.replay[step]? = some choice := by
  rw [choose, strict, replays] at chooses
  cases strictly : chooseStrict ready step scheduler with
  | mk value between =>
    rw [strictly] at chooses
    cases chooses
    obtain ⟨_, found, takes⟩ := chooseStrict_lawful (by rw [strictly]; exact lawful)
    cases strictly.symm.trans takes
    exact found

end Scheduler

/-! ## Rounds -/

namespace Executor

variable {μ : Type} (env : Environment)

variable {executor after : Executor μ} {outcome : Option RunOutcome} {maxSteps rounds : Nat}
  {recorded : List Nat}

theorem chooseTask_eq_ok {choice : Nat} : chooseTask env executor = (.ok choice, after) ↔
      ∃ scheduler, (executor.scheduler.informed executor.world.emitted).choose env.draw
          executor.world.ready executor.steps = (some choice, scheduler) ∧
        scheduler.violation = none ∧
        after = { executor with world := { executor.world with emitted := [] }, scheduler } := by
  unfold chooseTask
  dsimp only
  cases chosen : (executor.scheduler.informed executor.world.emitted).choose env.draw
      executor.world.ready executor.steps with
  | mk selected scheduler =>
    cases selected with
    | none => simp
    | some value =>
      cases violation : scheduler.violation with
      | none =>
        simp only [violation]
        constructor
        · rintro ⟨⟩
          exact ⟨scheduler, rfl, violation, rfl⟩
        · rintro ⟨_, ⟨⟩, _, rfl⟩
          rfl
      | some violated =>
        simp only [violation]
        constructor
        · rintro ⟨⟩
        · rintro ⟨_, ⟨⟩, lawful, _⟩
          cases violation.symm.trans lawful

theorem worldly_eq_ok {α : Type} {action : Action World RuntimeError α} {value : α} :
    worldly action executor = (.ok value, after) ↔
      ∃ world, action executor.world = (.ok value, world) ∧ after = { executor with world } := by
  unfold worldly zoom
  cases action executor.world with
  | mk outcome world =>
    constructor
    · intro same
      cases same
      exact ⟨world, rfl, rfl⟩
    · rintro ⟨other, same, rfl⟩
      cases same
      rfl

theorem act_eq_ok : act env executor = (.ok outcome, after) ↔
      (∃ result world, settle env executor.world = (.ok (some result), world) ∧
        outcome = some result ∧ after = { executor with world }) ∨
      ∃ world choice scheduler polled final, settle env executor.world = (.ok none, world) ∧
        (executor.scheduler.informed world.emitted).choose env.draw world.ready executor.steps =
          (some choice, scheduler) ∧
        scheduler.violation = none ∧
        proceed env choice { world with emitted := [] } = (.ok polled, final) ∧
        outcome = none ∧
        after = { executor with world := final, scheduler, steps := executor.steps + polled.toNat } := by
  unfold act
  rw [bind_eq_ok]
  constructor
  · rintro ⟨answer, between, settles, rest⟩
    obtain ⟨world, inner, rfl⟩ := worldly_eq_ok.mp settles
    have settled := mapError_eq_ok.mp inner
    cases answer with
    | some result =>
      cases rest
      exact .inl ⟨result, world, settled, rfl, rfl⟩
    | none =>
      obtain ⟨choice, chosen, chooses, rest⟩ := bind_eq_ok.mp rest
      obtain ⟨polled, moved, moves, counts⟩ := bind_eq_ok.mp rest
      obtain ⟨scheduler, selects, lawful, rfl⟩ := (chooseTask_eq_ok env).mp chooses
      obtain ⟨final, proceeds, rfl⟩ := worldly_eq_ok.mp moves
      cases counts
      exact .inr ⟨world, choice, scheduler, polled, final, settled, selects, lawful, proceeds, rfl, rfl⟩
  · rintro (⟨result, world, settles, rfl, rfl⟩ |
      ⟨world, choice, scheduler, polled, final, settles, selects, lawful, proceeds, rfl, rfl⟩)
    · exact ⟨some result, _, worldly_eq_ok.mpr ⟨world, mapError_eq_ok.mpr settles, rfl⟩, rfl⟩
    · refine ⟨none, _, worldly_eq_ok.mpr ⟨world, mapError_eq_ok.mpr settles, rfl⟩, ?_⟩
      have chooses : chooseTask env { executor with world } = (.ok choice,
          { executor with world := { world with emitted := [] }, scheduler }) :=
        (chooseTask_eq_ok env).mpr ⟨scheduler, selects, lawful, rfl⟩
      have moves : worldly (proceed env choice)
          { executor with world := { world with emitted := [] }, scheduler } =
          (.ok polled, { executor with world := final, scheduler }) :=
        worldly_eq_ok.mpr ⟨final, proceeds, rfl⟩
      exact bind_eq_ok.mpr ⟨choice, _, chooses, bind_eq_ok.mpr ⟨polled, _, moves, rfl⟩⟩

theorem turn_eq_ok {stepMonitor : Option (StepMonitor μ)} :
    turn env stepMonitor executor = (.ok outcome, after) ↔
      (∃ result, act env executor = (.ok (some result), after) ∧ outcome = some result) ∨
      ∃ between, act env executor = (.ok none, between) ∧ ((∃ reason monitor,
            between.watch stepMonitor executor.world.journal.len = (.halt reason, monitor) ∧
            outcome = some (.monitorHalt reason) ∧ after = { between with monitor }) ∨
          ∃ monitor, between.watch stepMonitor executor.world.journal.len = (.continue, monitor) ∧
            outcome = none ∧ after = ({ between with monitor } : Executor μ).noted) := by
  unfold turn
  rw [get_bind, bind_eq_ok]
  constructor
  · rintro ⟨answer, between, acts, rest⟩
    cases answer with
    | some result =>
      cases rest
      exact .inl ⟨result, acts, rfl⟩
    | none =>
      refine .inr ⟨between, acts, ?_⟩
      obtain ⟨action, shown, consults, rest⟩ := bind_eq_ok.mp rest
      unfold consult at consults
      cases watched : between.watch stepMonitor executor.world.journal.len with
      | mk answer monitor =>
        rw [watched] at consults
        cases consults
        cases action with
        | halt reason =>
          cases rest
          exact .inl ⟨reason, monitor, rfl, rfl, rfl⟩
        | «continue» =>
          cases rest
          exact .inr ⟨monitor, rfl, rfl, rfl⟩
  · rintro (⟨result, acts, rfl⟩ |
      ⟨between, acts, ⟨reason, monitor, watched, rfl, rfl⟩ | ⟨monitor, watched, rfl, rfl⟩⟩)
    · exact ⟨some result, after, acts, rfl⟩
    · refine ⟨none, between, acts, bind_eq_ok.mpr ⟨.halt reason, { between with monitor }, ?_, rfl⟩⟩
      rw [consult, watched]
    · refine ⟨none, between, acts, bind_eq_ok.mpr ⟨.continue, { between with monitor }, ?_, rfl⟩⟩
      rw [consult, watched]

/-- Every decision so far has polled a task, and no decision was refused. -/
structure Steady (executor : Executor μ) : Prop where
  sound : executor.world.Sound
  steps : executor.steps = executor.scheduler.decisions.length
  lawful : executor.scheduler.violation = none

variable {env}

/-- What a round that takes a decision changes. -/
structure Decided (env : Environment) (before after : Executor μ) (choice : Nat) : Prop where
  steady : after.Steady
  steps : after.steps = before.steps + 1
  scheduler : Scheduler.Alike
    { before.scheduler with decisions := before.scheduler.decisions ++ [choice] } after.scheduler
  monitor : after.monitor = before.monitor

theorem Steady.act (steady : executor.Steady) (acts : act env executor = (.ok outcome, after)) :
    (∃ result, outcome = some result ∧ after.Steady ∧ after.scheduler = executor.scheduler ∧
      after.steps = executor.steps ∧ after.monitor = executor.monitor) ∨
    outcome = none ∧ ∃ choice, Decided env executor after choice := by
  obtain ⟨result, world, settles, rfl, rfl⟩ |
    ⟨world, choice, scheduler, polled, final, settles, selects, lawful, proceeds, rfl, rfl⟩ :=
      (act_eq_ok env).mp acts
  · have sound := settle_sound env executor.world steady.sound
    rw [settles] at sound
    exact .inl ⟨result, rfl, ⟨sound, steady.steps, steady.lawful⟩, rfl, rfl, rfl⟩
  · have sound := settle_sound env executor.world steady.sound
    rw [settles] at sound
    have quiet : ({ world with emitted := [] } : World).Sound := sound.of_standing rfl
    obtain ⟨rfl, soundFinal, _⟩ := proceed_sound env quiet proceeds
    have alike := decided_alike env.draw selects lawful
    refine .inr ⟨rfl, choice, ⟨⟨soundFinal, ?_, lawful⟩, rfl, alike, rfl⟩⟩
    rw [alike.decisions, List.length_append, ← steady.steps]
    rfl

/-- Notes about the trace do not matter to a run. -/
structure Unmoved (before after : Executor μ) : Prop where
  world : after.world = before.world
  steps : after.steps = before.steps
  scheduler : Scheduler.Alike before.scheduler after.scheduler

theorem noted_unmoved (executor : Executor μ) : Unmoved executor executor.noted := by
  unfold noted
  split <;> exact ⟨rfl, rfl, ⟨rfl, rfl, rfl, rfl, rfl⟩⟩

theorem Steady.of_unmoved {before after : Executor μ} (steady : before.Steady)
    (unmoved : Unmoved before after) : after.Steady where
  sound := unmoved.world ▸ steady.sound
  steps := by rw [unmoved.steps, unmoved.scheduler.decisions, steady.steps]
  lawful := unmoved.scheduler.violation.trans steady.lawful

theorem loop_induction {invariant : Executor μ → Prop} {stepMonitor : Option (StepMonitor μ)}
    (step : ∀ executor outcome after, invariant executor →
      turn env stepMonitor executor = (.ok outcome, after) → invariant after)
    {executor final : Executor μ} {outcome : RunOutcome} (initial : invariant executor)
    (runs : loop env stepMonitor maxSteps rounds executor = (.ok outcome, final)) :
    invariant final := by
  induction rounds generalizing executor with
  | zero =>
    cases runs
    exact initial
  | succ rounds ih =>
    rw [loop, get_bind] at runs
    split at runs
    · obtain ⟨answer, between, turns, rest⟩ := bind_eq_ok.mp runs
      have next := step executor answer between initial turns
      cases answer with
      | some result =>
        cases rest
        exact next
      | none => exact ih next rest
    · cases runs
      exact initial

/-! ## Unmonitored runs -/

theorem turn_unmonitored : turn env none executor = (.ok outcome, after) ↔
      ∃ between, act env executor = (.ok outcome, between) ∧
        after = if outcome.isSome then between else between.noted := by
  rw [turn_eq_ok]
  constructor
  · rintro (⟨result, acts, rfl⟩ |
      ⟨between, acts, ⟨reason, monitor, watched, _, _⟩ | ⟨monitor, watched, rfl, rfl⟩⟩)
    · exact ⟨after, acts, rfl⟩
    · cases watched
    · cases watched
      exact ⟨between, acts, rfl⟩
  · rintro ⟨between, acts, rfl⟩
    cases outcome with
    | some result => exact .inl ⟨result, acts, rfl⟩
    | none => exact .inr ⟨between, acts, .inr ⟨between.monitor, rfl, rfl, rfl⟩⟩

/-- Rounds keep the decisions taken so far. -/
theorem Steady.turn
    (steady : executor.Steady) (turns : turn env none executor = (.ok outcome, after)) :
    after.Steady ∧ executor.scheduler.decisions <+: after.scheduler.decisions := by
  obtain ⟨between, acts, rfl⟩ := turn_unmonitored.mp turns
  obtain ⟨result, rfl, steadyAfter, scheduler, _, _⟩ | ⟨rfl, choice, decided⟩ := steady.act acts
  · exact ⟨steadyAfter, scheduler ▸ List.prefix_rfl⟩
  · have unmoved := noted_unmoved between
    refine ⟨decided.steady.of_unmoved unmoved, ?_⟩
    show _ <+: between.noted.scheduler.decisions
    rw [unmoved.scheduler.decisions, decided.scheduler.decisions]
    exact List.prefix_append ..

theorem Steady.loop {executor final : Executor μ} {outcome : RunOutcome} (steady : executor.Steady)
    (runs : Executor.loop env none maxSteps rounds executor = (.ok outcome, final)) :
    final.Steady ∧ executor.scheduler.decisions <+: final.scheduler.decisions := by
  have step (current : Executor μ) (outcome : Option RunOutcome) (after : Executor μ)
      (holds : current.Steady ∧ executor.scheduler.decisions <+: current.scheduler.decisions)
      (turns : Executor.turn env none current = (.ok outcome, after)) :
      after.Steady ∧ executor.scheduler.decisions <+: after.scheduler.decisions := by
    obtain ⟨steadyAfter, grown⟩ := holds.1.turn turns
    exact ⟨steadyAfter, holds.2.trans grown⟩
  exact loop_induction step ⟨steady, List.prefix_rfl⟩ runs

/-- The replayer stands where the recorder stood, with the recorded decisions ahead of it. -/
structure Lockstep (recorded : List Nat) (recorder replayer : Executor μ) : Prop where
  world : replayer.world = recorder.world
  steps : replayer.steps = recorder.steps
  decisions : replayer.scheduler.decisions = recorder.scheduler.decisions
  policy : replayer.scheduler.policy = .replay
  replay : replayer.scheduler.replay = recorded
  lawful : replayer.scheduler.violation = none

theorem Lockstep.of_unmoved {recorder replayer recorder' replayer' : Executor μ}
    (lockstep : Lockstep recorded recorder replayer) (first : Unmoved recorder recorder')
    (second : Unmoved replayer replayer') : Lockstep recorded recorder' replayer' where
  world := second.world.trans (lockstep.world.trans first.world.symm)
  steps := second.steps.trans (lockstep.steps.trans first.steps.symm)
  decisions := second.scheduler.decisions.trans (lockstep.decisions.trans first.scheduler.decisions.symm)
  policy := second.scheduler.policy.trans lockstep.policy
  replay := second.scheduler.replay.trans lockstep.replay
  lawful := second.scheduler.violation.trans lockstep.lawful

theorem Lockstep.act {recorder replayer after : Executor μ} (lockstep : Lockstep recorded recorder replayer)
    (steady : recorder.Steady) (acts : act env recorder = (.ok outcome, after))
    (ahead : after.scheduler.decisions <+: recorded) :
    ∃ replayed, act env replayer = (.ok outcome, replayed) ∧
      Lockstep recorded after replayed := by
  obtain ⟨result, world, settles, rfl, rfl⟩ |
    ⟨world, choice, scheduler, polled, final, settles, selects, lawful, proceeds, rfl, rfl⟩ :=
      (act_eq_ok env).mp acts
  · refine ⟨{ replayer with world }, (act_eq_ok env).mpr (.inl ⟨result, world, ?_, rfl, rfl⟩), ?_⟩
    · rw [lockstep.world]
      exact settles
    · exact ⟨rfl, lockstep.steps, lockstep.decisions, lockstep.policy, lockstep.replay, lockstep.lawful⟩
  · have sound := settle_sound env recorder.world steady.sound
    rw [settles] at sound
    have quiet : ({ world with emitted := [] } : World).Sound := sound.of_standing rfl
    obtain ⟨_, _, inside⟩ := proceed_sound env quiet proceeds
    have hears := replayer.scheduler.informed_alike world.emitted
    have decisions := (decided_alike env.draw selects lawful).decisions
    -- The step counts the decisions, so the recorded list holds this choice at the step.
    have found : (replayer.scheduler.informed world.emitted).replay[replayer.steps]? = some choice := by
      obtain ⟨later, rfl⟩ := ahead
      rw [hears.replay, lockstep.replay, lockstep.steps, steady.steps, decisions]
      simp
    have takes := choose_recorded env.draw (hears.policy.trans lockstep.policy) found inside
    refine ⟨_, (act_eq_ok env).mpr (.inr ⟨world, choice, _, polled, final, ?_, takes, ?_, proceeds,
      rfl, rfl⟩), ?_⟩
    · rw [lockstep.world]
      exact settles
    · exact hears.violation.trans lockstep.lawful
    · refine ⟨rfl, ?_, ?_, hears.policy.trans lockstep.policy, hears.replay.trans lockstep.replay,
        hears.violation.trans lockstep.lawful⟩
      · show replayer.steps + polled.toNat = recorder.steps + polled.toNat
        rw [lockstep.steps]
      · show (replayer.scheduler.informed world.emitted).decisions ++ [choice] = scheduler.decisions
        rw [hears.decisions, lockstep.decisions, decisions]

theorem Lockstep.loop {recorder replayer final : Executor μ} {outcome : RunOutcome}
    (lockstep : Lockstep recorded recorder replayer) (steady : recorder.Steady)
    (runs : Executor.loop env none maxSteps rounds recorder = (.ok outcome, final))
    (ahead : final.scheduler.decisions <+: recorded) :
    ∃ replayed, Executor.loop env none maxSteps rounds replayer = (.ok outcome, replayed) ∧
      Lockstep recorded final replayed := by
  induction rounds generalizing recorder replayer with
  | zero =>
    cases runs
    exact ⟨replayer, rfl, lockstep⟩
  | succ rounds ih =>
    rw [Executor.loop, get_bind] at runs ⊢
    rw [lockstep.steps]
    split at runs
    · rename_i within
      rw [if_pos within]
      obtain ⟨answer, between, turns, rest⟩ := bind_eq_ok.mp runs
      obtain ⟨acted, acts, rfl⟩ := turn_unmonitored.mp turns
      have steadyBetween := (steady.turn turns).1
      cases answer with
      | some result =>
        cases rest
        obtain ⟨replayed, follows, locked⟩ := lockstep.act steady acts ahead
        refine ⟨replayed, ?_, locked⟩
        exact bind_eq_ok.mpr ⟨some outcome, replayed, turn_unmonitored.mpr ⟨replayed, follows, rfl⟩, rfl⟩
      | none =>
        have unmoved := noted_unmoved acted
        have soFar : acted.scheduler.decisions <+: recorded := by
          rw [← unmoved.scheduler.decisions]
          exact (steadyBetween.loop rest).2.trans ahead
        obtain ⟨replayed, follows, locked⟩ := lockstep.act steady acts soFar
        obtain ⟨last, continues, lockedLast⟩ :=
          ih (locked.of_unmoved unmoved (noted_unmoved replayed)) steadyBetween rest
        exact ⟨last, bind_eq_ok.mpr ⟨none, replayed.noted,
          turn_unmonitored.mpr ⟨replayed, follows, rfl⟩, continues⟩, lockedLast⟩
    · rename_i beyond
      rw [if_neg beyond]
      cases runs
      exact ⟨replayer, rfl, lockstep⟩

theorem drive_unmonitored {maxSteps : Nat} {executor final : Executor μ} {outcome : RunOutcome} :
    drive env none maxSteps executor = (.ok outcome, final) ↔
      ∃ world, journalSpawns env executor.world = (.ok (), world) ∧
        loop env none maxSteps maxSteps { executor with world } = (.ok outcome, final) := by
  have begins (executor after : Executor μ) (action : OnlineAction) :
      begin env none executor = (.ok action, after) ↔
        ∃ world, journalSpawns env executor.world = (.ok (), world) ∧ action = .continue ∧
          after = { executor with world } := by
    unfold begin
    rw [bind_eq_ok]
    constructor
    · rintro ⟨_, between, spawns, rest⟩
      obtain ⟨world, inner, rfl⟩ := worldly_eq_ok.mp spawns
      refine ⟨world, mapError_eq_ok.mp inner, ?_⟩
      rw [get_bind] at rest
      split at rest <;> cases rest <;> exact ⟨rfl, rfl⟩
    · rintro ⟨world, spawns, rfl, rfl⟩
      refine ⟨(), _, worldly_eq_ok.mpr ⟨world, mapError_eq_ok.mpr spawns, rfl⟩, ?_⟩
      rw [get_bind]
      split <;> rfl
  unfold drive
  rw [bind_eq_ok]
  constructor
  · rintro ⟨action, between, beginning, rest⟩
    obtain ⟨world, spawns, rfl, rfl⟩ := (begins _ _ _).mp beginning
    exact ⟨world, spawns, rest⟩
  · rintro ⟨world, spawns, runs⟩
    exact ⟨.continue, _, (begins _ _ _).mpr ⟨world, spawns, rfl, rfl⟩, runs⟩

theorem finish_eq_ok {run : Except RuntimeError RunOutcome × Executor μ} {result : RunResult} :
    finish run = .ok result ↔ ∃ outcome executor, run = (.ok outcome, executor) ∧
        executor.scheduler.checkTrailing executor.scheduler.decisions.length = none ∧
        executor.world.journalError = none ∧ result = executor.result outcome := by
  obtain ⟨answer, executor⟩ := run
  cases answer with
  | error fault => simp [finish]
  | ok outcome =>
    unfold finish check
    cases trailing : executor.scheduler.checkTrailing executor.scheduler.decisions.length with
    | some violation => simp [Except.map, trailing]
    | none =>
      cases failed : executor.world.journalError with
      | some fault => simp [Except.map, trailing, failed]
      | none => simp [Except.map, trailing, failed, eq_comm]

theorem journalSpawns_journaled : (journalSpawns env).Relates (Journaled env) :=
  relates_get.bind fun _ => relates_forM fun _ _ =>
    (journalAppend_journaled env _ _ _ _).bind fun _ => relates_pure _

end Executor

/-! ## Fidelity -/

/-- The results agree on everything but the trace, which only one kind of run records. -/
structure RunResult.Agrees (result other : RunResult) : Prop where
  journal : result.journal = other.journal
  decisions : result.decisions = other.decisions
  registers : result.registers = other.registers
  steps : result.steps = other.steps
  outcome : result.outcome = other.outcome
  appliedFaults : result.appliedFaults = other.appliedFaults

namespace Simulation

open Executor

variable {features : Features}

theorem steady_spawned (host : SimHost) {simulation : Simulation features} {world : World}
    (undecided : simulation.scheduler.decisions = []) (lawful : simulation.scheduler.violation = none)
    (spawns : journalSpawns (simulation.config.environment host)
      (simulation.executor ()).world = (.ok (), world)) :
    ({ simulation.executor () with world } : Executor Unit).Steady := by
  have same : Journaled _ (simulation.executor ()).world
      (journalSpawns (simulation.config.environment host) (simulation.executor ()).world).2 :=
    journalSpawns_journaled _
  rw [spawns] at same
  exact ⟨(World.Sound.start _ _).of_standing same.effect.standing, congrArg List.length undecided.symm, lawful⟩

theorem run_of_replay {host : SimHost} {recording replaying : Simulation features}
    {result : RunResult} (runs : recording.run host = .ok result)
    (undecided : recording.scheduler.decisions = []) (unrefused : recording.scheduler.violation = none)
    (world : (replaying.executor ()).world = (recording.executor ()).world)
    (environment : replaying.config.environment host = recording.config.environment host)
    (budget : replaying.config.maxSteps = recording.config.maxSteps)
    (decisions : replaying.scheduler.decisions = []) (lawful : replaying.scheduler.violation = none)
    (policy : replaying.scheduler.policy = .replay)
    (replay : replaying.scheduler.replay = result.decisions) :
    ∃ replayed, replaying.run host = .ok replayed ∧ replayed.Agrees result := by
  obtain ⟨outcome, final, drives, trailing, complete, rfl⟩ := finish_eq_ok.mp runs
  obtain ⟨spawned, spawns, loops⟩ := drive_unmonitored.mp drives
  have steady := steady_spawned host undecided unrefused spawns
  have lockstep : Lockstep final.scheduler.decisions
      ({ recording.executor () with world := spawned } : Executor Unit)
      { replaying.executor () with world := spawned } :=
    ⟨rfl, rfl, decisions.trans undecided.symm, policy, replay, lawful⟩
  obtain ⟨replayed, follows, locked⟩ := lockstep.loop steady loops List.prefix_rfl
  refine ⟨replayed.result outcome, finish_eq_ok.mpr ⟨outcome, replayed, ?_, ?_, ?_, rfl⟩, ?_⟩
  · refine drive_unmonitored.mpr ⟨spawned, ?_, ?_⟩
    · rw [environment, world]
      exact spawns
    · rw [environment, budget]
      exact follows
  · rw [checkTrailing, locked.decisions, locked.replay]
    simp
  · rw [locked.world]
    exact complete
  · have sameOutcome : replayed.finalOutcome outcome = final.finalOutcome outcome := by
      rw [finalOutcome, finalOutcome, locked.world]
    exact ⟨congrArg World.journal locked.world, locked.decisions,
      congrArg (fun world => world.tasks.map (·.register)) locked.world, locked.steps, sameOutcome,
      congrArg World.appliedFaults locked.world⟩

/-- A strict replay has taken the first of its recorded decisions. -/
structure Strictly (executor : Executor Unit) : Prop where
  steady : executor.Steady
  policy : executor.scheduler.policy = .replay
  strict : executor.scheduler.strict = true
  taken : executor.scheduler.decisions <+: executor.scheduler.replay

theorem Strictly.turn {env : Environment} {executor after : Executor Unit}
    {outcome : Option RunOutcome} (strictly : Strictly executor)
    (turns : turn env none executor = (.ok outcome, after)) :
    Strictly after ∧ after.scheduler.replay = executor.scheduler.replay := by
  obtain ⟨between, acts, rfl⟩ := turn_unmonitored.mp turns
  have steady := (strictly.steady.turn turns).1
  obtain ⟨result, world, settles, rfl, rfl⟩ |
    ⟨world, choice, scheduler, polled, final, settles, selects, lawful, proceeds, rfl, rfl⟩ :=
      (act_eq_ok env).mp acts
  · exact ⟨⟨steady, strictly.policy, strictly.strict, strictly.taken⟩, rfl⟩
  · have told := executor.scheduler.informed_alike world.emitted
    have alike := decided_alike env.draw selects lawful
    have found := recorded_of_choose env.draw (told.policy.trans strictly.policy)
      (told.strict.trans strictly.strict) selects lawful
    have taken : scheduler.decisions <+: scheduler.replay := by
      obtain ⟨later, split⟩ := strictly.taken
      rw [told.replay, strictly.steady.steps, ← split, List.getElem?_append_right le_rfl, Nat.sub_self] at found
      obtain ⟨rest, rfl⟩ : ∃ rest, later = choice :: rest := by
        cases later with
        | nil => cases found
        | cons first rest => exact ⟨rest, congrArg (· :: rest) (Option.some.inj found)⟩
      rw [alike.replay, alike.decisions, ← split]
      exact ⟨rest, List.append_assoc ..⟩
    have unmoved := noted_unmoved { executor with
      world := final, scheduler, steps := executor.steps + polled.toNat }
    refine ⟨⟨steady, ?_, ?_, ?_⟩, unmoved.scheduler.replay.trans alike.replay⟩
    · exact unmoved.scheduler.policy.trans (alike.policy.trans strictly.policy)
    · exact unmoved.scheduler.strict.trans (alike.strict.trans strictly.strict)
    · show (noted _).scheduler.decisions <+: (noted _).scheduler.replay
      rw [unmoved.scheduler.decisions, unmoved.scheduler.replay]
      exact taken

theorem decisions_of_strict {host : SimHost} {config : RunConfig features}
    {programs : List (List Instruction)} {replay : List Nat} {result : RunResult}
    (runs : (withReplayStrict config programs replay).run host = .ok result) :
    result.decisions = replay := by
  obtain ⟨outcome, final, drives, trailing, _, rfl⟩ := finish_eq_ok.mp runs
  obtain ⟨spawned, spawns, loops⟩ := drive_unmonitored.mp drives
  have step (current : Executor Unit) (outcome : Option RunOutcome) (after : Executor Unit)
      (holds : Strictly current ∧ current.scheduler.replay = replay)
      (turns : turn ((withReplayStrict config programs replay).config.environment host)
        none current = (.ok outcome, after)) :
      Strictly after ∧ after.scheduler.replay = replay := by
    obtain ⟨strictly, kept⟩ := holds.1.turn turns
    exact ⟨strictly, kept.trans holds.2⟩
  obtain ⟨strictly, same⟩ := loop_induction step
    ⟨⟨steady_spawned host rfl rfl spawns, rfl, rfl, List.nil_prefix⟩, rfl⟩ loops
  rw [checkTrailing, strictly.strict, same] at trailing
  have complete : ¬ final.scheduler.decisions.length < replay.length := by
    intro short
    simp [short] at trailing
  exact (same ▸ strictly.taken).eq_of_length_le (not_lt.mp complete)

/-- Recorded decisions reproduce the run they were recorded in, strictly or not, and a strict replay
that succeeds has taken exactly its decisions. -/
theorem replay_fidelity (host : SimHost) (config : RunConfig features) (programs : List (List Instruction)) :
    (∀ result, (new config programs).run host = .ok result →
      (∃ replayed, (withReplay { config with policy := .replay } programs result.decisions).run host =
          .ok replayed ∧ replayed.Agrees result) ∧
        ∃ replayed, (withReplayStrict config programs result.decisions).run host = .ok replayed ∧
          replayed.Agrees result) ∧
    ∀ replay replayed, (withReplayStrict config programs replay).run host = .ok replayed →
      replayed.decisions = replay := by
  refine ⟨fun result runs => ⟨?_, ?_⟩, fun replay replayed => decisions_of_strict⟩
  · exact run_of_replay runs rfl rfl rfl rfl rfl rfl rfl rfl rfl
  · exact run_of_replay runs rfl rfl rfl rfl rfl rfl rfl rfl rfl

end Simulation

def plainHost : SimHost :=
  { blake3 := checksum, drawU64 := fun _ _ offset => offset, fromUtf8Lossy := fun _ => "" }

namespace Simulation

/-- A message that is sent while its receiver already waits. -/
def pingPrograms : List (List Instruction) :=
  [[.sleep 2, .send 1 7, .done], [.receive, .outcome, .done]]

theorem pingPrograms_replayed : ∃ result, (new (.default ⟨false⟩) pingPrograms).run plainHost = .ok result ∧
      result.steps = 7 ∧
      ∃ replayed, (withReplayStrict (.default ⟨false⟩) pingPrograms result.decisions).run plainHost =
        .ok replayed ∧ replayed.Agrees result := by
  obtain ⟨result, runs, steps⟩ := okWith_eq_true.mp (show okWith (·.steps = 7)
    ((new (.default ⟨false⟩) pingPrograms).run plainHost) = true by decide +kernel)
  exact ⟨result, runs, of_decide_eq_true steps, ((replay_fidelity plainHost _ pingPrograms).1 result runs).2⟩

end Simulation

end Ldgr.Sim
