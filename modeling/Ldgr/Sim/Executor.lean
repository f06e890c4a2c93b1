import Ldgr.Sim.Boundary

/-! The deterministic executor: one scheduling decision per step is journaled, and blocking effects
park their task until a timer or a message wakes it. -/

namespace Ldgr.Sim

open Base Format Boundary Action

/-! ## Programs -/

inductive Step where
  | continue
  | parked
  | finished
  deriving DecidableEq

section Programs

variable (env : Environment) (task : Nat)

def execute : Instruction → Action World JournalError Step
  | .yield => do
      yieldBlock env task
      pure .continue
  | .sleep ticks => do
      parkSleep env task ticks
      pure .parked
  | .send target payload => do
      let _ ← send env task target payload
      pure .continue
  | .sendTimed target payload delay => do
      let _ ← sendTimed env task target payload delay
      pure .continue
  | .receive => do
      let received ← recvNow env task
      match received with
      | some value =>
        setRegister task value
        pure .continue
      | none =>
        -- The instruction is tried again after the wake-up.
        modify (·.updateTask task fun entry =>
          { entry with program := .receive :: entry.program })
        parkMessage env task
        pure .parked
  | .set value => do
      inputStep env task 0 0 value
      setRegister task value
      pure .continue
  | .input generator replay value => do
      inputStep env task generator replay value
      setRegister task value
      pure .continue
  | .readClock => do
      let now ← readClock env task
      setRegister task now
      pure .continue
  | .fsWrite path value => do
      let _ ← recorded (fsWrite env task path value)
      pure .continue
  | .fsFsync => do
      let _ ← recorded (fsFsync env task)
      pure .continue
  | .fsRead path => do
      let observed ← recorded (fsRead env task path)
      match observed with
      | some (some value) =>
        setRegister task value
        pure .continue
      | _ => pure .continue
  | .fsCrash => do
      fsCrash env task
      pure .continue
  | .assert passed => do
      assertEntry env task passed
      pure .continue
  | .outcome => do
      let world ← get
      let register := (world.tasks[task]?.map (·.register)).getD 0
      let _ ← recorded (outcome env task register)
      pure .continue
  | .done => do
      outcomeDone env task
      pure .finished

def executeOne : Action World JournalError Step := do
  let world ← get
  match world.tasks[task]?.bind (·.program.head?) with
  | none => pure .finished
  | some instruction =>
    modify (·.updateTask task fun entry => { entry with program := entry.program.tail })
    execute env task instruction

/-- An append that fails ends the program; the failure is recorded. -/
def poll : Action World JournalError Step := do
  let step ← recorded (executeOne env task)
  pure (step.getD .finished)

end Programs

/-! ## Runs -/

abbrev HaltReason := String

inductive RunOutcome where
  | completed
  | budgetExhausted
  | blocked
  | monitorHalt (reason : HaltReason)
  deriving DecidableEq

inductive OnlineAction where
  | continue
  | halt (reason : HaltReason)
  deriving DecidableEq

/-- Called with the journal and the length it had before the step. -/
abbrev StepMonitor (μ : Type) := Journal → Nat → μ → OnlineAction × μ

inductive RuntimeError where
  | journal (fault : JournalError)
  | strictReplay (violation : ReplayViolation)
  /-- The process stops inside the scheduler. -/
  | panic
  deriving DecidableEq

/-- `μ` is the state of the step monitor. -/
structure Executor (μ : Type) where
  world : World
  scheduler : Scheduler
  steps : Nat
  monitor : μ

structure RunResult where
  journal : Journal
  decisions : List Nat
  trace : List StepTrace
  registers : List UInt64
  steps : Nat
  outcome : RunOutcome
  appliedFaults : List EntryHash

namespace World

variable (world : World)

def allTasksDone : Bool :=
  world.tasks.all (·.done)

def toWake : List Nat :=
  (List.range world.tasks.length).filter fun task =>
    world.tasks[task]?.any (·.blockedOn = some .message) && world.net.hasReadyMessage task world.time.now

def wake (task : Nat) : World :=
  let woken := world.updateTask task fun entry => { entry with blockedOn := none }
  { woken with ready := woken.ready ++ [task] }

def wakeByTimer (task : Nat) : World :=
  (world.updateTask task fun entry => { entry with timerFired := true }).wake task

/-- The next instant at which a timer fires or a queued message arrives, whoever it is for. -/
def targetTime : Option UInt64 :=
  match world.time.nextDeadline, world.net.earliestDeliveryTime with
  | some timer, some delivery => some (min timer delivery)
  | some timer, none => some timer
  | none, delivery => delivery

end World

section Run

variable (env : Environment)

def schedActor : ActorId :=
  ⟨0xffffffff⟩

def schedStream : StreamId :=
  ⟨0⟩

def journalSpawns : Action World JournalError Unit := do
  let world ← get
  (List.range world.tasks.length).forM fun task => do
    let _ ← journalAppend env (actorOf task) .spawn [] (.spawn (actorOf task))
    pure ()

def journalRngDraw (choice : Nat) : Action World JournalError Unit := do
  let _ ← journalAppend env schedActor .rngDraw []
    (.rngDraw { stream := schedStream, drawIndex := 0, content := leBytes 8 choice })
  pure ()

def wakeTask (now : UInt64) (task : Nat) : Action World JournalError Unit := do
  let world ← get
  let wakeId ← journalAppend env (actorOf task) .wake (world.net.peekReadySendId task now).toList
    (.wake (.messageReady { sender := actorOf task, senderSequence := 0 }))
  notifyEntry env (actorOf task) .wake task (some wakeId)
  modify (·.wake task)

def wakeBlockedWithMessages : Action World JournalError Unit := do
  let world ← get
  world.toWake.forM (wakeTask env world.time.now)

/-- A firing and the wake-up chained to it. -/
def timerBatch (fired : TimerFired) : List BatchEntry :=
  [{ kind := .timerFire, actor := actorOf fired.task, observedParents := fired.enabler.toList
     chainPrevious := false, payload := .timerFire 0 0 },
    { kind := .wake, actor := actorOf fired.task, observedParents := [], chainPrevious := true
      payload := .wake (.timerReady 0) }]

def announceTimers : List TimerFired → List EntryHash → Action World JournalError Unit
  | fired :: rest, timerId :: wakeId :: ids => do
      notifyEntry env (actorOf fired.task) .timerFire fired.task (some timerId)
      notifyEntry env (actorOf fired.task) .wake fired.task (some wakeId)
      modify (·.wakeByTimer fired.task)
      announceTimers rest ids
  | _, _ => pure ()

def fireTimers (fired : List TimerFired) : Action World JournalError Unit :=
  if fired.isEmpty then pure ()
  else do
    let ids ← journalAppendBatch env (fired.flatMap timerBatch)
    announceTimers env fired ids

/-- An instant that is already past is no target: the clock then goes to the next timer. -/
def World.advance (world : World) : List TimerFired × VirtualTime :=
  match world.targetTime with
  | none => ([], world.time)
  | some target =>
    if world.time.now < target then world.time.advanceToWithEnablers target
    else world.time.advanceWithEnablers

def advanceQuiescent : Action World JournalError Unit := do
  let world ← get
  let (fired, time) := world.advance
  modify fun world => { world with time }
  fireTimers env fired
  wakeBlockedWithMessages env

/-- Jumps to a delivery that still lies ahead. -/
def advanceToDelivery : Action World JournalError Unit := do
  let world ← get
  match world.net.earliestDeliveryTime with
  | some earliest =>
    if world.time.now < earliest then
      modify fun world => { world with time := world.time.advanceTo earliest }
      wakeBlockedWithMessages env
    else pure ()
  | none => pure ()

/-- Wakes what can run; without any ready task the outcome of the run is decided. -/
def settle : Action World JournalError (Option RunOutcome) := do
  wakeBlockedWithMessages env
  let world ← get
  if world.ready ≠ [] then pure none
  else
    advanceQuiescent env
    let world ← get
    if world.ready ≠ [] then pure none
    else if world.allTasksDone then pure (some .completed)
    else
      advanceToDelivery env
      let world ← get
      if world.ready ≠ [] then pure none else pure (some .blocked)

/-- Removes a position by moving the last element into it. -/
def swapRemove (ready : List Nat) (choice : Nat) : Option (Nat × List Nat) :=
  match ready[choice]?, ready.getLast? with
  | some task, some last => some (task, (ready.set choice last).dropLast)
  | _, _ => none

def takeReady (choice : Nat) : Action World RuntimeError Nat :=
  fun world =>
    match swapRemove world.ready choice with
    | none => (.error .panic, world)
    | some (task, ready) => (.ok task, { world with ready })

/-- A finished task is done; one that can still run goes back into the ready list. -/
def World.afterPoll (world : World) (task : Nat) (step : Step) : World :=
  if step = .finished then world.updateTask task fun entry => { entry with done := true }
  else if world.tasks[task]?.any fun entry => entry.blockedOn.isNone && !entry.done then
    { world with ready := world.ready ++ [task] }
  else world

/-- Runs one instruction of a task that can run. The answer tells whether there was one to run. -/
def pollTask (task : Nat) : Action World JournalError Bool := do
  let world ← get
  match world.tasks[task]? with
  | none => pure false
  | some entry =>
    if entry.done || entry.blockedOn.isSome then pure false
    else
      let step ← poll env task
      modify (·.afterPoll task step)
      pure true

/-- What follows a decision: it is journaled and the chosen task is polled. -/
def proceed (choice : Nat) : Action World RuntimeError Bool := do
  (journalRngDraw env choice).mapError .journal
  let task ← takeReady choice
  (pollTask env task).mapError .journal

namespace Executor

variable {μ : Type}

def worldly {α : Type} (action : Action World RuntimeError α) : Action (Executor μ) RuntimeError α :=
  action.zoom Executor.world fun executor world => { executor with world }

/-- The scheduler hears of the entries emitted since the last decision, then chooses. -/
def chooseTask : Action (Executor μ) RuntimeError Nat :=
  fun executor =>
    let informed := executor.scheduler.informed executor.world.emitted
    let world := { executor.world with emitted := [] }
    match informed.choose env.draw world.ready executor.steps with
    | (none, scheduler) => (.error .panic, { executor with world, scheduler })
    | (some choice, scheduler) =>
      match scheduler.violation with
      | some violation => (.error (.strictReplay violation), { executor with world, scheduler })
      | none => (.ok choice, { executor with world, scheduler })

/-- Only a poll counts as a step. -/
def count (polled : Bool) : Action (Executor μ) RuntimeError Unit :=
  modify fun executor => { executor with steps := executor.steps + polled.toNat }

variable (stepMonitor : Option (StepMonitor μ))

/-- Shows the monitor what the journal gained since it had `start` entries. -/
def watch (start : Nat) (executor : Executor μ) : OnlineAction × μ :=
  match stepMonitor with
  | none => (.continue, executor.monitor)
  | some observe => observe executor.world.journal start executor.monitor

def consult (start : Nat) : Action (Executor μ) RuntimeError OnlineAction :=
  fun executor =>
    let (action, monitor) := executor.watch stepMonitor start
    (.ok action, { executor with monitor })

variable (executor : Executor μ)

/-- Only a traced run keeps the journal length of each step. -/
def noted : Executor μ :=
  if executor.scheduler.traceEnabled then
    { executor with scheduler := executor.scheduler.noteStepJournalLen executor.world.journal.len }
  else executor

/-- Settles the world and takes one decision; without a task to choose, the run has an outcome. -/
def act : Action (Executor μ) RuntimeError (Option RunOutcome) := do
  let settled ← worldly ((settle env).mapError .journal)
  match settled with
  | some outcome => pure (some outcome)
  | none =>
    let choice ← chooseTask env
    let polled ← worldly (proceed env choice)
    count polled
    pure none

/-- One round of the loop; an outcome ends the run. -/
def turn : Action (Executor μ) RuntimeError (Option RunOutcome) := do
  let executor ← get
  let outcome ← act env
  match outcome with
  | some outcome => pure (some outcome)
  | none =>
    let action ← consult stepMonitor executor.world.journal.len
    match action with
    | .halt reason => pure (some (.monitorHalt reason))
    | .continue =>
      modify noted
      pure none

/-- Every round polls a task, so as many rounds as the budget has steps are enough. -/
def loop (stepMonitor : Option (StepMonitor μ)) (maxSteps : Nat) :
    Nat → Action (Executor μ) RuntimeError RunOutcome
  | 0 => pure .budgetExhausted
  | rounds + 1 => do
      let executor ← get
      if executor.steps < maxSteps then
        let outcome ← turn env stepMonitor
        match outcome with
        | some outcome => pure outcome
        | none => loop stepMonitor maxSteps rounds
      else pure .budgetExhausted

/-- The monitor sees the spawn entries before the first step. -/
def begin : Action (Executor μ) RuntimeError OnlineAction := do
  worldly ((journalSpawns env).mapError .journal)
  let executor ← get
  if executor.world.journal.len = 0 then pure .continue else consult stepMonitor 0

def drive (maxSteps : Nat) : Action (Executor μ) RuntimeError RunOutcome := do
  let action ← begin env stepMonitor
  match action with
  | .halt reason => pure (.monitorHalt reason)
  | .continue => loop env stepMonitor maxSteps maxSteps

/-- A run with leftover decisions or an incomplete journal is rejected. -/
def check : Except RuntimeError Unit :=
  match executor.scheduler.checkTrailing executor.scheduler.decisions.length with
  | some violation => .error (.strictReplay violation)
  | none =>
    match executor.world.journalError with
    | some fault => .error (.journal fault)
    | none => .ok ()

/-- The last step can complete every task just as the budget runs out. -/
def finalOutcome (outcome : RunOutcome) : RunOutcome :=
  if outcome = .budgetExhausted ∧ executor.world.allTasksDone then .completed else outcome

def result (outcome : RunOutcome) : RunResult :=
  { journal := executor.world.journal
    decisions := executor.scheduler.decisions
    trace := executor.scheduler.trace
    registers := executor.world.tasks.map (·.register)
    steps := executor.steps
    outcome := executor.finalOutcome outcome
    appliedFaults := executor.world.appliedFaults }

def finish (run : Except RuntimeError RunOutcome × Executor μ) : Except RuntimeError RunResult :=
  match run with
  | (.error fault, _) => .error fault
  | (.ok outcome, executor) => (executor.check).map fun _ => executor.result outcome

end Executor

end Run

/-! ## Simulations -/

/-- Links first, then the scheduled partitions. -/
def RunConfig.network {features : Features} (config : RunConfig features) : SimNet :=
  let linked := config.links.foldl (fun net (source, target, link) =>
    net.setLink source.toNat target.toNat link) SimNet.new
  config.faultSchedule.foldl (fun net fault =>
    match fault with
    | .partition source target => net.partition source.id.toNat target.id.toNat
    | _ => net) linked

def RunConfig.storage {features : Features} (config : RunConfig features) : SimFs :=
  let fs := SimFs.withBudgets features ((config.maxFileExtent.map UInt64.toNat).getD maxFileExtentHard)
    (config.maxResidentBytes.map UInt64.toNat)
  match config.fsJournaling.1 with
  | some mode => fs.setJournalingMode mode
  | none => fs

/-- Every task is ready, in the order of the programs. -/
def World.start {features : Features} (config : RunConfig features)
    (programs : List (List Instruction)) : World :=
  { journal := Journal.new, time := VirtualTime.new, net := config.network, fs := config.storage
    tasks := programs.map TaskEntry.new, ready := List.range programs.length
    netOffset := 0, fsOffset := 0, sendSeq := ∅, coverage := ∅, faultClassesUsed := []
    appliedFaults := [], journalError := none, emitted := [] }

structure Simulation (features : Features) where
  config : RunConfig features
  programs : List (List Instruction)
  scheduler : Scheduler

namespace Simulation

variable {features : Features}

def withReplayAndFallback (config : RunConfig features) (programs : List (List Instruction))
    (replay : List Nat) (fallback : Policy) : Simulation features :=
  { config, programs, scheduler := Scheduler.withFallback config.policy replay fallback }

def withReplay (config : RunConfig features) (programs : List (List Instruction))
    (replay : List Nat) : Simulation features :=
  withReplayAndFallback config programs replay .random

def new (config : RunConfig features) (programs : List (List Instruction)) : Simulation features :=
  withReplay config programs []

/-- A strict simulation replays whatever policy its configuration names. -/
def withReplayStrict (config : RunConfig features) (programs : List (List Instruction))
    (replay : List Nat) : Simulation features :=
  { config := { config with policy := .replay }, programs
    scheduler := Scheduler.withFallbackStrict .replay replay .random }

def executor {μ : Type} (simulation : Simulation features) (monitor : μ) : Executor μ :=
  { world := World.start simulation.config simulation.programs, scheduler := simulation.scheduler
    steps := 0, monitor }

/-- The whole run, with the state it ends in. -/
def drive {μ : Type} (host : SimHost) (simulation : Simulation features)
    (stepMonitor : Option (StepMonitor μ)) (monitor : μ) :
    Except RuntimeError RunOutcome × Executor μ :=
  Executor.drive (simulation.config.environment host) stepMonitor simulation.config.maxSteps.toNat
    (simulation.executor monitor)

def runWithStepMonitor {μ : Type} (host : SimHost) (simulation : Simulation features)
    (stepMonitor : StepMonitor μ) (monitor : μ) : Except RuntimeError RunResult :=
  Executor.finish (simulation.drive host (some stepMonitor) monitor)

def run (host : SimHost) (simulation : Simulation features) : Except RuntimeError RunResult :=
  Executor.finish (simulation.drive host none ())

end Simulation

end Ldgr.Sim
