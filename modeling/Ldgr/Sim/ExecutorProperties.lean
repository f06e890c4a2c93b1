import Ldgr.Sim.BoundaryProperties
import Ldgr.Sim.Executor

/-! The ready list of the executor: no task stands in it twice and every task in it can run, so every
decision polls a task and steps are decisions. -/

namespace Ldgr.Sim

open Base Format Action Boundary List World IsTrans

namespace World

def status (world : World) (task : Nat) : Option (Option BlockedOn × Bool) :=
  world.tasks[task]?.map TaskEntry.status

/-- A ready task can run, a timer belongs to the task it parks, and a parked task is not done. -/
structure Sound (world : World) : Prop where
  readyNodup : world.ready.Nodup
  readyRunnable : ∀ task ∈ world.ready, world.status task = some (none, false)
  timersNodup : (world.time.timers.timers.map Timer.task).Nodup
  timersParked : ∀ timer ∈ world.time.timers.timers, world.status timer.task = some (some .timer, false)
  parkedAlive : ∀ task blocked done, world.status task = some (some blocked, done) → done = false

theorem status_eq_standing (world : World) (task : Nat) : world.status task = world.standing.1[task]? := by
  rw [status, standing, List.getElem?_map]

variable {before after : World}

theorem status_of_standing (same : Action.Same standing before after)
    (task : Nat) : after.status task = before.status task := by
  have agree : after.standing = before.standing := same
  rw [status_eq_standing, status_eq_standing, agree]

theorem ready_of_standing (same : Action.Same standing before after) : after.ready = before.ready :=
  congrArg (·.2.1) (same : after.standing = before.standing)

theorem time_of_standing (same : Action.Same standing before after) : after.time = before.time :=
  congrArg (·.2.2) (same : after.standing = before.standing)

theorem Sound.of_standing (sound : before.Sound) (same : Action.Same standing before after) : after.Sound := by
  have ready := ready_of_standing same
  have time := time_of_standing same
  refine ⟨ready ▸ sound.readyNodup, ?_, time ▸ sound.timersNodup, ?_, ?_⟩
  · intro task member
    rw [status_of_standing same]
    exact sound.readyRunnable task (ready ▸ member)
  · intro timer member
    rw [status_of_standing same]
    exact sound.timersParked timer (time ▸ member)
  · intro task blocked done parked
    rw [status_of_standing same] at parked
    exact sound.parkedAlive task blocked done parked

theorem Sound.start {features : Features} (config : RunConfig features)
    (programs : List (List Instruction)) : (start config programs).Sound where
  readyNodup := nodup_range
  readyRunnable := by
    intro task member
    have inside : task < programs.length := mem_range.mp member
    simp [status, World.start, List.getElem?_eq_getElem inside, TaskEntry.new, TaskEntry.status]
  timersNodup := nodup_nil
  timersParked := fun timer member => absurd member not_mem_nil
  parkedAlive := by
    intro task blocked done parked
    obtain ⟨entry, found, same⟩ := Option.map_eq_some_iff.mp parked
    obtain ⟨program, _, rfl⟩ := Option.map_eq_some_iff.mp ((List.getElem?_map ..).symm.trans found)
    cases same

/-! ## Changes of one task -/

theorem status_updateTask (world : World) (task other : Nat) {change : TaskEntry → TaskEntry}
    {shift : Option BlockedOn × Bool → Option BlockedOn × Bool}
    (shifts : ∀ entry, (change entry).status = shift entry.status) :
    (world.updateTask task change).status other =
      if other = task then (world.status task).map shift else world.status other := by
  rw [status, updateTask, List.getElem?_modify]
  by_cases here : other = task
  · subst here
    simp [status, Function.comp_def, shifts]
  · simp [status, here, Ne.symm here]

theorem status_wake (world : World) (task other : Nat) : (world.wake task).status other =
      if other = task then (world.status task).map fun status => (none, status.2)
      else world.status other :=
  world.status_updateTask task other fun _ => rfl

theorem Sound.wake {world : World} (sound : world.Sound) {task : Nat} {blocked : BlockedOn}
    (parked : world.status task = some (some blocked, false))
    (untimed : ∀ timer ∈ world.time.timers.timers, timer.task ≠ task) : (world.wake task).Sound where
  readyNodup := by
    refine nodup_append.mpr ⟨sound.readyNodup, nodup_singleton _, ?_⟩
    intro other member last isLast same
    have runnable := sound.readyRunnable other member
    rw [same, mem_singleton.mp isLast, parked] at runnable
    cases runnable
  readyRunnable := by
    intro other member
    rw [status_wake]
    split_ifs with here
    · rw [parked]
      rfl
    · obtain earlier | last := mem_append.mp member
      · exact sound.readyRunnable other earlier
      · exact absurd (mem_singleton.mp last) here
  timersNodup := sound.timersNodup
  timersParked := by
    intro timer member
    rw [status_wake, if_neg (untimed timer member)]
    exact sound.timersParked timer member
  parkedAlive := by
    intro other reason done parkedAfter
    rw [status_wake] at parkedAfter
    split_ifs at parkedAfter with here
    · rw [parked] at parkedAfter
      cases parkedAfter
    · exact sound.parkedAlive other reason done parkedAfter

theorem Sound.untimed_of_message {world : World} (sound : world.Sound) {task : Nat}
    (parked : world.status task = some (some .message, false)) :
    ∀ timer ∈ world.time.timers.timers, timer.task ≠ task := by
  intro timer member same
  have timed := sound.timersParked timer member
  rw [same, parked] at timed
  cases timed

end World

/-! ## Wake-ups -/

section Settling

variable (env : Environment)

theorem wakeTask_cases (now : UInt64) (task : Nat) (world : World) : ∃ between, Journaled env world between ∧
      ((∃ fault, wakeTask env now task world = (.error fault, between)) ∨
        wakeTask env now task world = (.ok (), between.wake task)) := by
  obtain ⟨fault, between, same, failed⟩ | ⟨wakeId, between, same, woken⟩ :=
    (journalAppend_journaled env (actorOf task) .wake (world.net.peekReadySendId task now).toList
      (.wake (.messageReady { sender := actorOf task, senderSequence := 0 }))).bind_cases
      (fun wakeId => do
        notifyEntry env (actorOf task) .wake task (some wakeId)
        Action.modify (·.wake task)) world
  · exact ⟨between, same, .inl ⟨fault, failed⟩⟩
  · have announced := notifyEntry_journaled env (actorOf task) .wake task (some wakeId) between
    exact ⟨_, trans _ _ _ same announced, .inr woken⟩

variable {world : World}

theorem wakeTasks_sound (now : UInt64) {tasks : List Nat} (distinct : tasks.Nodup) (sound : world.Sound)
    (parked : ∀ task ∈ tasks, world.status task = some (some .message, false)) :
    (tasks.forM (wakeTask env now) world).2.Sound := by
  induction tasks generalizing world with
  | nil => exact sound
  | cons task rest ih =>
    obtain ⟨fresh, distinctRest⟩ := nodup_cons.mp distinct
    show ((wakeTask env now task >>= fun _ => rest.forM (wakeTask env now)) world).2.Sound
    obtain ⟨between, same, ⟨fault, failed⟩ | woken⟩ := wakeTask_cases env now task world
    · have stays := sound.of_standing (same.effect.standing)
      rw [bind_of_error failed]
      exact stays
    · have standing := same.effect.standing
      have here := parked task mem_cons_self
      rw [← status_of_standing standing] at here
      have stays := sound.of_standing standing
      rw [bind_of_ok woken]
      refine ih distinctRest (stays.wake here (stays.untimed_of_message here)) ?_
      intro other member
      have apart : other ≠ task := fun same => fresh (same ▸ member)
      rw [status_wake, if_neg apart, status_of_standing standing]
      exact parked other (mem_cons_of_mem _ member)

theorem World.Sound.toWake_parked (sound : world.Sound) {task : Nat}
    (member : task ∈ world.toWake) : world.status task = some (some .message, false) := by
  obtain ⟨_, condition⟩ := mem_filter.mp member
  obtain ⟨waits, _⟩ := Bool.and_eq_true_iff.mp condition
  cases found : world.tasks[task]? with
  | none => simp [found] at waits
  | some entry =>
    have message : entry.blockedOn = some .message := by simpa [found] using waits
    have shown : world.status task = some (some .message, entry.done) := by
      rw [status, found, Option.map_some, TaskEntry.status, message]
    rw [shown, sound.parkedAlive task .message entry.done shown]

theorem wakeBlockedWithMessages_sound (sound : world.Sound) : (wakeBlockedWithMessages env world).2.Sound :=
  wakeTasks_sound env world.time.now (nodup_range.filter _) sound fun _ member =>
    sound.toWake_parked member

/-! ## Timers -/

theorem World.advance_split (world : World) : ∃ fired remaining, world.time.timers.timers = fired ++ remaining ∧
      world.advance.1 = fired.map Timer.fired ∧ world.advance.2.timers.timers = remaining := by
  have none : world.time.timers.timers = [] ++ world.time.timers.timers := rfl
  unfold advance
  split
  · exact ⟨[], _, none, rfl, rfl⟩
  · split
    · exact ⟨_, _, (takeWhile_append_dropWhile ..).symm, rfl, rfl⟩
    · unfold VirtualTime.advanceWithEnablers
      split
      · exact ⟨[], _, none, rfl, rfl⟩
      · exact ⟨_, _, (takeWhile_append_dropWhile ..).symm, rfl, rfl⟩

section Timers

variable {fired : List TimerFired} (distinct : (fired.map TimerFired.task).Nodup) (sound : world.Sound)
  (parked : ∀ timer ∈ fired, world.status timer.task = some (some .timer, false))
  (untimed : ∀ timer ∈ fired, ∀ pending ∈ world.time.timers.timers, pending.task ≠ timer.task)

include distinct sound parked untimed

theorem announceTimers_sound (ids : List EntryHash) :
    (announceTimers env fired ids world).2.Sound := by
  induction fired generalizing ids world with
  | nil =>
    rw [announceTimers]
    · exact sound
    · simp
  | cons timer rest ih =>
    match ids with
    | [] | [_] => exact sound
    | timerId :: wakeId :: ids =>
      obtain ⟨fresh, distinctRest⟩ := nodup_cons.mp distinct
      let noted := (notifyEntry env (actorOf timer.task) .wake timer.task (some wakeId)
        (notifyEntry env (actorOf timer.task) .timerFire timer.task (some timerId) world).2).2
      let flagged := noted.updateTask timer.task fun entry => { entry with timerFired := true }
      have standing : Action.Same standing world flagged :=
        (noted.standing_updateTask fun _ => rfl)
      have step : announceTimers env (timer :: rest) (timerId :: wakeId :: ids) world =
          announceTimers env rest ids (flagged.wake timer.task) := rfl
      have stays := sound.of_standing standing
      have sameTime := time_of_standing standing
      have here := parked timer mem_cons_self
      rw [← status_of_standing standing] at here
      have free := untimed timer mem_cons_self
      rw [← sameTime] at free
      rw [step]
      refine ih distinctRest (stays.wake here free) ?_ ?_ ids
      · intro other member
        have apart : other.task ≠ timer.task := fun same =>
          fresh (mem_map.mpr ⟨other, member, same⟩)
        rw [status_wake, if_neg apart, status_of_standing standing]
        exact parked other (mem_cons_of_mem _ member)
      · intro other member pending isPending
        refine untimed other (mem_cons_of_mem _ member) pending ?_
        rw [← sameTime]
        exact isPending

theorem fireTimers_sound : (fireTimers env fired world).2.Sound := by
  unfold fireTimers
  split
  · exact sound
  · obtain ⟨fault, between, same, failed⟩ | ⟨ids, between, same, done⟩ :=
      (journalAppendBatch_journaled env (fired.flatMap timerBatch)).bind_cases (announceTimers env fired) world
    · rw [failed]
      exact sound.of_standing same.effect.standing
    · have standing := same.effect.standing
      rw [done]
      refine announceTimers_sound env distinct (sound.of_standing standing) ?_ ?_ ids
      · intro timer member
        rw [status_of_standing standing]
        exact parked timer member
      · intro timer member pending isPending
        rw [time_of_standing standing] at isPending
        exact untimed timer member pending isPending

end Timers

theorem World.Sound.of_remaining (sound : world.Sound) {time : VirtualTime}
    {fired : List Timer} (split : world.time.timers.timers = fired ++ time.timers.timers) :
    ({ world with time } : World).Sound where
  readyNodup := sound.readyNodup
  readyRunnable := sound.readyRunnable
  timersNodup := by
    have distinct := sound.timersNodup
    rw [split, map_append] at distinct
    exact (nodup_append.mp distinct).2.1
  timersParked := by
    intro timer member
    exact sound.timersParked timer (split ▸ mem_append_right _ member)
  parkedAlive := sound.parkedAlive

theorem advanceQuiescent_sound (sound : world.Sound) : (advanceQuiescent env world).2.Sound := by
  obtain ⟨fired, remaining, split, firedEq, rfl⟩ := world.advance_split
  have distinct := sound.timersNodup
  rw [split, map_append] at distinct
  obtain ⟨distinctFired, _, apart⟩ := nodup_append.mp distinct
  have sameTasks : (fired.map Timer.fired).map TimerFired.task = fired.map Timer.task := by
    rw [map_map]
    rfl
  have fires : (fireTimers env world.advance.1 { world with time := world.advance.2 }).2.Sound := by
    refine fireTimers_sound env (by rw [firedEq, sameTasks]; exact distinctFired)
      (sound.of_remaining split) ?_ ?_
    · intro timer member
      obtain ⟨source, fires, rfl⟩ := mem_map.mp (firedEq ▸ member)
      exact sound.timersParked source (split ▸ mem_append_left _ fires)
    · intro timer member pending isPending same
      obtain ⟨source, fires, rfl⟩ := mem_map.mp (firedEq ▸ member)
      exact apart source.task (mem_map_of_mem fires) pending.task (mem_map_of_mem isPending) same.symm
  show ((fireTimers env world.advance.1 >>= fun _ => wakeBlockedWithMessages env)
    { world with time := world.advance.2 }).2.Sound
  cases result : fireTimers env world.advance.1 { world with time := world.advance.2 } with
  | mk outcome between =>
    rw [result] at fires
    cases outcome with
    | error fault =>
      rw [bind_of_error result]
      exact fires
    | ok _ =>
      rw [bind_of_ok result]
      exact wakeBlockedWithMessages_sound env fires

theorem advanceToDelivery_sound : (advanceToDelivery env).Relates (Action.Carries World.Sound) := by
  refine relates_get.bind fun world => ?_
  split
  · split
    · refine Action.Relates.bind (relates_modify fun _ sound => ?_) fun _ _ sound =>
        wakeBlockedWithMessages_sound env sound
      exact sound.of_remaining (nil_append _).symm
    · exact relates_pure _
  · exact relates_pure _

theorem settle_sound : (settle env).Relates (Action.Carries World.Sound) := by
  have wakes : (wakeBlockedWithMessages env).Relates (Action.Carries World.Sound) :=
    fun _ sound => wakeBlockedWithMessages_sound env sound
  have advances : (advanceQuiescent env).Relates (Action.Carries World.Sound) :=
    fun _ sound => advanceQuiescent_sound env sound
  refine wakes.bind fun _ => relates_get.bind fun world => ?_
  split
  · exact relates_pure _
  · refine advances.bind fun _ => relates_get.bind fun world => ?_
    split
    · exact relates_pure _
    · split
      · exact relates_pure _
      · refine (advanceToDelivery_sound env).bind fun _ => relates_get.bind fun world => ?_
        split <;> exact relates_pure _

end Settling

/-! ## Polls -/

namespace World

variable {world : World} {task : Nat}

theorem status_parkOnMessage (world : World) (task other : Nat) : (world.parkOnMessage task).status other =
      if other = task then (world.status task).map fun status => (some .message, status.2)
      else world.status other :=
  world.status_updateTask task other fun _ => rfl

theorem status_parkOnTimer (world : World) (task other : Nat) (ticks : UInt64) (timerSet : EntryHash) :
    (world.parkOnTimer task ticks timerSet).status other =
      if other = task then (world.status task).map fun status => (some .timer, status.2)
      else world.status other :=
  status_updateTask _ task other fun _ => rfl

section Running

variable (sound : world.Sound) (absent : task ∉ world.ready) (running : world.status task = some (none, false))

include sound running in
theorem Sound.untimed_of_running :
    ∀ timer ∈ world.time.timers.timers, timer.task ≠ task := by
  intro timer member same
  have timed := sound.timersParked timer member
  rw [same, running] at timed
  cases timed

include absent in
theorem Sound.ready_ne : ∀ other ∈ world.ready, other ≠ task :=
  fun _ member same => absent (same ▸ member)

include sound absent running

/-- A running task may stand in any way in which it is not both parked and done. -/
theorem Sound.updateTask {change : TaskEntry → TaskEntry}
    (shift : Option BlockedOn × Bool → Option BlockedOn × Bool)
    (shifts : ∀ entry, (change entry).status = shift entry.status)
    (alive : ∀ blocked, shift (none, false) ≠ (some blocked, true)) :
    (world.updateTask task change).Sound where
  readyNodup := sound.readyNodup
  readyRunnable := by
    intro other member
    rw [world.status_updateTask task other shifts, if_neg (Sound.ready_ne absent other member)]
    exact sound.readyRunnable other member
  timersNodup := sound.timersNodup
  timersParked := by
    intro timer member
    rw [world.status_updateTask task _ shifts, if_neg (sound.untimed_of_running running timer member)]
    exact sound.timersParked timer member
  parkedAlive := by
    intro other blocked done parked
    rw [world.status_updateTask task other shifts, running] at parked
    split_ifs at parked
    · cases done with
      | false => rfl
      | true => exact absurd (Option.some.inj parked) (alive blocked)
    · exact sound.parkedAlive other blocked done parked

theorem Sound.parkOnMessage : (world.parkOnMessage task).Sound :=
  sound.updateTask absent running (fun status => (some .message, status.2)) (fun _ => rfl) (by simp)

theorem Sound.parkOnTimer (ticks : UInt64) (timerSet : EntryHash) :
    (world.parkOnTimer task ticks timerSet).Sound where
  readyNodup := sound.readyNodup
  readyRunnable := by
    intro other member
    rw [status_parkOnTimer, if_neg (Sound.ready_ne absent other member)]
    exact sound.readyRunnable other member
  timersNodup := by
    refine ((perm_orderedInsert Timer.Before _ _).map Timer.task).nodup_iff.mpr ?_
    refine nodup_cons.mpr ⟨?_, sound.timersNodup⟩
    intro member
    obtain ⟨timer, pending, same⟩ := mem_map.mp member
    exact sound.untimed_of_running running timer pending same
  timersParked := by
    intro timer member
    rw [status_parkOnTimer]
    obtain rfl | pending := (mem_orderedInsert Timer.Before).mp member
    · rw [if_pos rfl, running]
      rfl
    · rw [if_neg (sound.untimed_of_running running timer pending)]
      exact sound.timersParked timer pending
  parkedAlive := by
    intro other blocked done parked
    rw [status_parkOnTimer, running] at parked
    split_ifs at parked
    · cases parked
      rfl
    · exact sound.parkedAlive other blocked done parked

theorem Sound.finish : (world.updateTask task fun entry => { entry with done := true }).Sound :=
  sound.updateTask absent running (fun status => (status.1, true)) (fun _ => rfl) (by simp)

theorem Sound.requeue : ({ world with ready := world.ready ++ [task] } : World).Sound where
  readyNodup := by
    refine nodup_append.mpr ⟨sound.readyNodup, nodup_singleton _, ?_⟩
    intro other member last isLast same
    exact absent (mem_singleton.mp isLast ▸ same ▸ member)
  readyRunnable := by
    intro other member
    obtain earlier | last := mem_append.mp member
    · exact sound.readyRunnable other earlier
    · exact mem_singleton.mp last ▸ running
  timersNodup := sound.timersNodup
  timersParked := sound.timersParked
  parkedAlive := sound.parkedAlive

end Running

end World

section Polls

variable (env : Environment) (task : Nat)

/-- What executing an instruction can do to the standing of the tasks: nothing, or park its task. -/
inductive Executed (env : Environment) (task : Nat) (world : World) : Except JournalError Step × World → Prop
  | kept {outcome : Except JournalError Step} {after : World}
      (same : Effect env world after) (unparked : outcome ≠ .ok .parked) :
      Executed env task world (outcome, after)
  | slept {between : World} (same : Effect env world between) (ticks : UInt64) (timerSet : EntryHash) :
      Executed env task world (.ok .parked, between.parkOnTimer task ticks timerSet)
  | waits {between : World} (same : Effect env world between) :
      Executed env task world (.ok .parked, between.parkOnMessage task)

theorem Executed.after {env : Environment} {task : Nat} {world before : World}
    {result : Except JournalError Step × World} (executed : Executed env task before result)
    (reached : Effect env world before) : Executed env task world result := by
  cases executed with
  | kept same unparked => exact .kept (trans _ _ _ reached same) unparked
  | slept same ticks timerSet => exact .slept (trans _ _ _ reached same) ticks timerSet
  | waits same => exact .waits (trans _ _ _ reached same)

/-- The computation keeps the standing of the tasks and does not answer that it parked. -/
def Quiet (env : Environment) (action : Action World JournalError Step) : Prop :=
  ∀ world, Effect env world (action world).2 ∧ (action world).1 ≠ .ok .parked

variable {env} in
theorem quiet_pure {answer : Step} (unparked : answer ≠ .parked) : Quiet env (pure answer) :=
  fun world => ⟨Std.Refl.refl world, fun parked => unparked (Except.ok.inj parked)⟩

variable {env} in
theorem Quiet.bind {α : Type} {action : Action World JournalError α}
    {next : α → Action World JournalError Step}
    (relates : action.Relates (Effect env)) (quiet : ∀ value, Quiet env (next value)) :
    Quiet env (action >>= next) := by
  intro world
  obtain ⟨fault, between, same, failed⟩ | ⟨value, between, same, done⟩ := relates.bind_cases next world
  · rw [failed]
    exact ⟨same, nofun⟩
  · rw [done]
    exact ⟨trans _ _ _ same (quiet value between).1, (quiet value between).2⟩

theorem Quiet.executed {action : Action World JournalError Step} (quiet : Quiet env action)
    (world : World) : Executed env task world (action world) :=
  .kept (quiet world).1 (quiet world).2

theorem sleep_executed (ticks : UInt64) (world : World) :
    Executed env task world (execute env task (.sleep ticks) world) := by
  obtain ⟨fault, between, same, failed⟩ | ⟨timerSet, between, same, parked⟩ :=
    (append_effect env task .timerSet [] (.timerSet 0 ticks)).bind_cases
      (fun timerSet => Action.modify (·.parkOnTimer task ticks timerSet)) world
  · have fails : execute env task (.sleep ticks) world = (.error fault, between) :=
      bind_of_error failed
    exact fails ▸ .kept same nofun
  · have parks : execute env task (.sleep ticks) world =
        (.ok .parked, between.parkOnTimer task ticks timerSet) := bind_of_ok parked
    exact parks ▸ .slept same ticks timerSet

theorem parkMessage_executed {world before : World} (reached : Effect env world before) :
    Executed env task world
      ((do parkMessage env task; pure Step.parked : Action World JournalError Step) before) := by
  obtain ⟨fault, between, same, failed⟩ | ⟨id, between, same, parked⟩ :=
    (append_effect env task .block [] (.block .yield)).bind_cases
      (fun _ => Action.modify (·.parkOnMessage task)) before
  · exact (bind_of_error failed).symm ▸ .kept (trans _ _ _ reached same) nofun
  · exact (bind_of_ok parked).symm ▸ .waits (trans _ _ _ reached same)

theorem receive_executed (world : World) : Executed env task world (execute env task .receive world) := by
  have same := recvNow_effect env task world
  cases result : recvNow env task world with
  | mk outcome between =>
    rw [result] at same
    cases outcome with
    | error fault =>
      have failed : execute env task .receive world = (.error fault, between) :=
        bind_of_error result
      rw [failed]
      exact .kept same nofun
    | ok received =>
      cases received with
      | some value =>
        have taken : execute env task .receive world = (do setRegister task value; pure Step.continue :
              Action World JournalError Step) between := bind_of_ok result
        have quiet := Quiet.bind (setRegister_effect env task value)
          (fun _ => (quiet_pure nofun : Quiet env (pure .continue))) between
        rw [taken]
        exact .kept (trans _ _ _ same quiet.1) quiet.2
      | none =>
        have missed : execute env task .receive world = (do parkMessage env task; pure Step.parked :
              Action World JournalError Step)
              (between.updateTask task fun entry =>
                { entry with program := .receive :: entry.program }) :=
          bind_of_ok result
        rw [missed]
        refine parkMessage_executed env task (trans _ _ _ same ?_)
        exact .of_eq (between.standing_updateTask fun _ => rfl) rfl rfl

theorem execute_executed (instruction : Instruction) (world : World) :
    Executed env task world (execute env task instruction world) := by
  have continues : ∀ _ : Unit, Quiet env (pure .continue) := fun _ => quiet_pure nofun
  have journals (kind : EntryKind) (payload : EntryPayload) :
      (do let _ ← Boundary.append env task kind [] payload; pure () :
        Action World JournalError Unit).Relates (Effect env) :=
    (append_effect env task kind [] payload).bind fun _ => relates_pure _
  have registers (value : UInt64) : Quiet env (do setRegister task value; pure .continue) :=
    .bind (setRegister_effect env task value) continues
  cases instruction with
  | yield => exact Quiet.executed env task (.bind (journals _ _) continues) world
  | sleep ticks => exact sleep_executed env task ticks world
  | send target payload | sendTimed target payload delay =>
    exact Quiet.executed env task (.bind ((effect_allows env task).sendBytesInner _ _ _) fun _ => continues ()) world
  | receive => exact receive_executed env task world
  | set value => exact Quiet.executed env task (.bind (journals _ _) fun _ => registers value) world
  | input generator replay value =>
    exact Quiet.executed env task (.bind (journals _ _) fun _ => registers value) world
  | readClock =>
    have reads : (readClock env task).Relates (Effect env) :=
      relates_get.bind fun _ =>
        (append_effect env task _ _ _).bind fun _ => relates_pure _
    exact Quiet.executed env task (.bind reads registers) world
  | fsWrite path value =>
    exact Quiet.executed env task (.bind (recorded_effect env (fsWrite_effect env task path value))
      fun _ => continues ()) world
  | fsFsync =>
    exact Quiet.executed env task (.bind (recorded_effect env (fsFsync_effect env task))
      fun _ => continues ()) world
  | fsRead path =>
    refine Quiet.executed env task (.bind (recorded_effect env (fsRead_effect env task path))
      fun observed => ?_) world
    split
    · exact registers _
    · exact continues ()
  | fsCrash => exact Quiet.executed env task (.bind (fsCrash_effect env task) continues) world
  | assert passed => exact Quiet.executed env task (.bind (journals _ _) continues) world
  | outcome =>
    refine Quiet.executed env task (.bind relates_get fun before => ?_) world
    exact .bind (recorded_effect env (append_effect env task _ _ _)) fun _ => continues ()
  | done =>
    have finishes : ∀ _ : Unit, Quiet env (pure .finished) := fun _ => quiet_pure nofun
    exact Quiet.executed env task (.bind (journals _ _) finishes) world

theorem executeOne_executed (world : World) : Executed env task world (executeOne env task world) := by
  cases next : world.tasks[task]?.bind (·.program.head?) with
  | none =>
    have finished : executeOne env task world = (.ok .finished, world) := by
      simp only [executeOne, get_bind, next, pure_apply]
    rw [finished]
    exact .kept (Std.Refl.refl world) nofun
  | some instruction =>
    have popping : executeOne env task world = execute env task instruction
        (world.updateTask task fun entry => { entry with program := entry.program.tail }) := by
      simp only [executeOne, get_bind, next, modify_bind]
    rw [popping]
    exact (execute_executed env task instruction _).after
      (.of_eq (world.standing_updateTask fun _ => rfl) rfl rfl)

theorem poll_executed (world : World) :
    ∃ step after, poll env task world = (.ok step, after) ∧ Executed env task world (.ok step, after) := by
  have executed := executeOne_executed env task world
  cases result : executeOne env task world with
  | mk outcome after =>
    rw [result] at executed
    cases outcome with
    | ok step =>
      have recording : recorded (executeOne env task) world = (.ok (some step), after) := by
        rw [recorded, result]
      exact ⟨step, after, bind_of_ok recording, executed⟩
    | error fault =>
      have recording : recorded (executeOne env task) world = (.ok none, after.recordJournalError fault) := by
        rw [recorded, result]
      refine ⟨.finished, after.recordJournalError fault, bind_of_ok recording, ?_⟩
      cases executed with
      | kept same unparked =>
        exact .kept (trans _ _ _ same (recordJournalError_journaled after fault).effect) nofun

theorem World.afterPoll_of_status {world : World} {task : Nat} {step : Step} (unfinished : step ≠ .finished) :
    world.afterPoll task step =
      if world.status task = some (none, false) then { world with ready := world.ready ++ [task] }
      else world := by
  rw [afterPoll, if_neg unfinished, status]
  cases world.tasks[task]? with
  | none => rfl
  | some entry => cases blocked : entry.blockedOn <;> cases done : entry.done <;>
      simp [TaskEntry.status, blocked, done]

theorem pollTask_sound {world : World} (sound : world.Sound) (absent : task ∉ world.ready)
    (running : world.status task = some (none, false)) :
    ∃ after, pollTask env task world = (.ok true, after) ∧ after.Sound := by
  obtain ⟨entry, found, statusEq⟩ := Option.map_eq_some_iff.mp running
  have unblocked : entry.blockedOn = none := congrArg Prod.fst statusEq
  have alive : entry.done = false := congrArg Prod.snd statusEq
  obtain ⟨step, between, polled, executed⟩ := poll_executed env task world
  have polls : pollTask env task world = (.ok true, between.afterPoll task step) := by
    simp only [pollTask, get_bind, found, unblocked, alive, Option.isSome_none, Bool.or_false,
      Bool.false_eq_true, if_false, bind_of_ok polled, modify_bind, pure_apply]
  refine ⟨_, polls, ?_⟩
  have unfinished : Step.parked ≠ .finished := nofun
  have kept {after : World} (same : Effect env world after) :
      after.Sound ∧ task ∉ after.ready ∧ after.status task = some (none, false) :=
    ⟨sound.of_standing same.standing, ready_of_standing same.standing ▸ absent,
      (status_of_standing same.standing task).trans running⟩
  cases executed with
  | kept same unparked =>
    obtain ⟨stays, absentAfter, runningAfter⟩ := kept same
    by_cases finished : step = .finished
    · rw [afterPoll, if_pos finished]
      exact stays.finish absentAfter runningAfter
    · rw [afterPoll_of_status finished, if_pos runningAfter]
      exact stays.requeue absentAfter runningAfter
  | slept same ticks timerSet =>
    obtain ⟨stays, absentAfter, runningAfter⟩ := kept same
    rw [afterPoll_of_status unfinished, status_parkOnTimer, if_pos rfl, runningAfter,
      if_neg (by simp)]
    exact stays.parkOnTimer absentAfter runningAfter ticks timerSet
  | waits same =>
    obtain ⟨stays, absentAfter, runningAfter⟩ := kept same
    rw [afterPoll_of_status unfinished, status_parkOnMessage, if_pos rfl, runningAfter,
      if_neg (by simp)]
    exact stays.parkOnMessage absentAfter runningAfter

/-! ## Decisions -/

theorem swapRemove_perm {ready rest : List Nat} {choice task : Nat}
    (removed : swapRemove ready choice = some (task, rest)) :
    choice < ready.length ∧ ready.Perm (task :: rest) := by
  unfold swapRemove at removed
  split at removed
  · rename_i found last atChoice atLast
    obtain ⟨rfl, rfl⟩ := Prod.mk.inj (Option.some.inj removed)
    obtain ⟨inside, rfl⟩ := List.getElem?_eq_some_iff.mp atChoice
    obtain ⟨front, rfl⟩ := List.getLast?_eq_some_iff.mp atLast
    refine ⟨inside, ?_⟩
    by_cases isLast : choice < front.length
    · rw [set_append_left _ _ isLast, dropLast_concat, getElem_append_left isLast]
      calc
        (front ++ [last]).Perm (last :: front) := perm_append_singleton last front
        List.Perm _ (last :: front[choice] :: front.eraseIdx choice) :=
          (getElem_cons_eraseIdx_perm isLast).symm.cons last
        List.Perm _ (front[choice] :: last :: front.eraseIdx choice) := List.Perm.swap ..
        List.Perm _ (front[choice] :: front.set choice last) :=
          (set_perm_cons_eraseIdx isLast last).symm.cons _
    · have final : choice = front.length := by
        rw [length_append, length_singleton] at inside
        omega
      subst final
      simp [perm_append_singleton]
  · cases removed

theorem journalRngDraw_journaled (choice : Nat) : (journalRngDraw env choice).Relates (Journaled env) :=
  (journalAppend_journaled env _ _ _ _).bind fun _ => relates_pure _

theorem proceed_sound {world after : World} {choice : Nat} {polled : Bool} (sound : world.Sound)
    (proceeds : proceed env choice world = (.ok polled, after)) :
    polled = true ∧ after.Sound ∧ choice < world.ready.length := by
  obtain ⟨done, drawn, draws, rest⟩ := bind_eq_ok.mp proceeds
  obtain ⟨task, between, takes, polls⟩ := bind_eq_ok.mp rest
  have same : Action.Same standing world drawn := by
    have relates := journalRngDraw_journaled env choice world
    rw [mapError_eq_ok.mp draws] at relates
    exact (Journaled.effect relates).standing
  have soundDrawn := sound.of_standing same
  unfold takeReady at takes
  cases removed : swapRemove drawn.ready choice with
  | none => simp [removed] at takes
  | some pair =>
    obtain ⟨chosen, ready⟩ := pair
    rw [removed] at takes
    obtain ⟨inside, perm⟩ := swapRemove_perm removed
    cases takes
    have distinct := perm.nodup_iff.mp soundDrawn.readyNodup
    have soundTaken : ({ drawn with ready } : World).Sound :=
      { readyNodup := (nodup_cons.mp distinct).2
        readyRunnable := fun other member =>
          soundDrawn.readyRunnable other (perm.mem_iff.mpr (mem_cons_of_mem _ member))
        timersNodup := soundDrawn.timersNodup
        timersParked := soundDrawn.timersParked
        parkedAlive := soundDrawn.parkedAlive }
    obtain ⟨final, result, soundFinal⟩ := pollTask_sound env task soundTaken (nodup_cons.mp distinct).1
      (soundDrawn.readyRunnable task (perm.mem_iff.mpr mem_cons_self))
    rw [mapError_eq_ok.mpr result] at polls
    cases polls
    exact ⟨rfl, soundFinal, ready_of_standing same ▸ inside⟩

end Polls

end Ldgr.Sim
