import Ldgr.Sim.Net
import Ldgr.Sim.Scheduler
import Ldgr.Sim.SimFs
import Ldgr.Sim.Time

/-! The effects of a simulated task: every one is journaled with the task as its actor. -/

namespace Ldgr.Sim

open Base Format Action

/-! ## Surroundings of a run -/

/-- The functions the simulator takes from elsewhere. -/
structure SimHost where
  blake3 : Bytes → EntryHash
  /-- Keyed draw from a root seed, a label and an offset. -/
  drawU64 : EntryHash → String → UInt64 → UInt64
  /-- Text of bytes that need not be UTF-8, with replacements. -/
  fromUtf8Lossy : Bytes → String

/-- What the effects read of the host and the configuration. -/
structure Environment where
  blake3 : Bytes → EntryHash
  fromUtf8Lossy : Bytes → String
  /-- Draws of the seed tree of the run. -/
  draw : String → UInt64 → UInt64
  droppedEvents : List EntryHash
  swarm : SwarmConfig
  reorderDraw : Bool
  faultSchedule : List SimFault
  fsJournaling : Option JournalingMode

def RunConfig.environment {features : Features} (host : SimHost) (config : RunConfig features) : Environment :=
  { blake3 := host.blake3
    fromUtf8Lossy := host.fromUtf8Lossy
    draw := host.drawU64 config.seed
    droppedEvents := config.droppedEvents
    swarm := config.swarm
    reorderDraw := config.reorderDraw
    faultSchedule := config.faultSchedule
    fsJournaling := config.fsJournaling.1 }

/-! ## Tasks -/

inductive Instruction where
  | yield
  | sleep (ticks : UInt64)
  | send (target : Nat) (payload : UInt64)
  | sendTimed (target : Nat) (payload delay : UInt64)
  | receive
  | set (value : UInt64)
  | input (generator replay value : UInt64)
  | readClock
  | fsWrite (path : String) (value : UInt64)
  | fsFsync
  | fsRead (path : String)
  | fsCrash
  | assert (passed : Bool)
  | outcome
  | done
  deriving DecidableEq

inductive BlockedOn where
  | timer
  | message
  deriving DecidableEq

structure TaskEntry where
  program : List Instruction
  /-- Why the task is parked; nothing when it can run. -/
  blockedOn : Option BlockedOn
  done : Bool
  register : UInt64
  timerFired : Bool

def TaskEntry.new (program : List Instruction) : TaskEntry :=
  { program, blockedOn := none, done := false, register := 0, timerFired := false }

/-- The state that the tasks and the executor share, apart from the scheduler. -/
structure World where
  journal : Journal
  time : VirtualTime
  net : SimNet
  fs : SimFs
  tasks : List TaskEntry
  ready : List Nat
  netOffset : UInt64
  fsOffset : UInt64
  sendSeq : AList fun _ : Nat => UInt64
  /-- Entries journaled for each actor. -/
  coverage : AList fun _ : ActorId => Nat
  faultClassesUsed : List Nat
  appliedFaults : List EntryHash
  journalError : Option JournalError
  /-- Entries the novelty model has not been told of yet; it is read only when a task is chosen. -/
  emitted : List Emission

namespace World

variable (world : World)

def updateTask (task : Nat) (change : TaskEntry → TaskEntry) : World :=
  { world with tasks := world.tasks.modify task change }

/-- The timer carries the entry that set it, so that the firing has it as parent. A flag left by an
earlier sleep is cleared. -/
def parkOnTimer (task : Nat) (ticks : UInt64) (timerSet : EntryHash) : World :=
  ({ world with time := world.time.setWithEnabler ticks task (some timerSet) }).updateTask task
    fun entry => { entry with timerFired := false, blockedOn := some .timer }

def parkOnMessage (task : Nat) : World :=
  world.updateTask task fun entry => { entry with blockedOn := some .message }

def cover (actor : ActorId) : World :=
  { world with
    coverage := world.coverage.insert actor ((world.coverage.lookup actor).getD 0 + 1) }

def recordJournalError (fault : JournalError) : World :=
  { world with journalError := world.journalError.or (some fault) }

def markFaultApplied (id : EntryHash) : World :=
  if id ∈ world.appliedFaults then world
  else { world with appliedFaults := world.appliedFaults ++ [id] }

end World

def actorOf (task : Nat) : ActorId :=
  ⟨UInt32.ofNat task⟩

/-! ## Journaling -/

/-- A fault is recorded in the run instead of being returned. -/
def recorded {α : Type} (action : Action World JournalError α) : Action World JournalError (Option α) :=
  fun world =>
    match action world with
    | (.ok value, after) => (.ok (some value), after)
    | (.error fault, after) => (.ok none, after.recordJournalError fault)

/-- Stable hash of the vector clock of an entry. -/
def entryVcSignature (blake3 : Bytes → EntryHash) (journal : Journal) (id : EntryHash) : Option UInt64 :=
  (journal.get id).map fun entry =>
    UInt64.ofNat (leNat ((blake3 entry.vectorClock.encode).digest.1.take 8))

section Journaling

variable (env : Environment)

def journalAppend (actor : ActorId) (kind : EntryKind) (parents : List EntryHash)
    (payload : EntryPayload) : Action World JournalError EntryHash := do
  let id ← (Journal.append env.blake3 false kind actor parents payload).zoom World.journal
    fun world journal => { world with journal }
  modify (·.cover actor)
  pure id

/-- Coverage is counted only when the whole batch went in. -/
def journalAppendBatch (batch : List BatchEntry) : Action World JournalError (List EntryHash) := do
  let ids ← (Journal.appendBatch env.blake3 false batch).zoom World.journal
    fun world journal => { world with journal }
  modify fun world => batch.foldl (fun world entry => world.cover entry.actor) world
  pure ids

def notifyEntry (actor : ActorId) (kind : EntryKind) (task : Nat) (entryId : Option EntryHash) :
    Action World JournalError Unit :=
  modify fun world =>
    { world with
      emitted := world.emitted ++
        [{ actor, kind, task, signature := entryId.bind (entryVcSignature env.blake3 world.journal) }] }

end Journaling

/-! ## Boundary -/

namespace Boundary

variable (env : Environment) (task : Nat)

def append (kind : EntryKind) (parents : List EntryHash) (payload : EntryPayload) :
    Action World JournalError EntryHash := do
  let id ← journalAppend env (actorOf task) kind parents payload
  notifyEntry env (actorOf task) kind task (some id)
  pure id

/-- The append of a caller that has no way to report a failure. -/
def appendRecorded (kind : EntryKind) (parents : List EntryHash) (payload : EntryPayload) :
    Action World JournalError Unit := do
  let _ ← recorded (append env task kind parents payload)
  pure ()

def appendFault (parents : List EntryHash) (fault : FaultPayload) : Action World JournalError Unit :=
  appendRecorded env task .fault parents (.fault fault)

def setRegister (value : UInt64) : Action World JournalError Unit :=
  modify (·.updateTask task fun entry => { entry with register := value })

/-! ### Draws -/

def drawNet : Action World JournalError UInt64 :=
  fun world =>
    (.ok (env.draw "net" world.netOffset), { world with netOffset := world.netOffset + 1 })

def drawFs : Action World JournalError UInt64 :=
  fun world => (.ok (env.draw "fs" world.fsOffset), { world with fsOffset := world.fsOffset + 1 })

def unitInterval (value : UInt64) : Float :=
  value.toFloat / wordMax.toFloat

/-- Draws only when the probability is positive. -/
def chance (draw : Action World JournalError UInt64) (probability : Probability) :
    Action World JournalError Bool :=
  if 0.0 < probability.value then do
    let value ← draw
    pure (unitInterval value < probability.value)
  else pure false

def netDrawDelay (maxDelayTicks : UInt64) : Action World JournalError UInt64 := do
  let value ← drawNet env
  pure (if maxDelayTicks = wordMax then value else value % (maxDelayTicks + 1))

/-! ### Sending -/

inductive SwarmAction where
  | deliver
  | delay (ticks : UInt64)
  /-- The drop has been journaled already. -/
  | drop

/-- A delay needs a positive bound as well. -/
def swarmDelays : Action World JournalError Bool :=
  if 0 < env.swarm.maxDelayTicks then chance (drawNet env) env.swarm.delayProbability
  else pure false

def swarmSendPolicy (sendId : EntryHash) (messageId : MessageId) : Action World JournalError SwarmAction := do
  let dropped ← chance (drawNet env) env.swarm.dropProbability
  if dropped then
    appendFault env task [sendId] (.dropMessage messageId)
    pure .drop
  else
    let delayed ← swarmDelays env
    if delayed then
      let ticks ← netDrawDelay env env.swarm.maxDelayTicks
      pure (.delay ticks)
    else pure .deliver

def faultTarget : SimFault → Option EntryHash
  | .drop target | .delay target _ | .duplicate target | .crash target | .corrupt target _
  | .crashState target _ => some target
  | .partition _ _ => none

def duplicateTargets (id : EntryHash) : Bool :=
  env.faultSchedule.any fun fault =>
    match fault with
    | .duplicate send => send = id
    | _ => false

def scheduleInjectionFor (id : EntryHash) : Option SimFault :=
  env.faultSchedule.find? fun fault => faultTarget fault = some id

inductive SendInjection where
  | untouched
  | delayed (ticks : UInt64)
  | dropped

def injectSendFault (sendId : EntryHash) (messageId : MessageId) : Action World JournalError SendInjection :=
  match scheduleInjectionFor env sendId with
  | some (.drop _) => do
      modify (·.markFaultApplied sendId)
      appendFault env task [sendId] (.dropMessage messageId)
      pure .dropped
  | some (.delay send ticks) => do
      modify (·.markFaultApplied send)
      pure (.delayed ticks)
  | _ => pure .untouched

/-- Whether the network took the message; a full bounded link refuses it before any draw. -/
inductive SendOutcome where
  | queued (delivered : Bool)
  | queueFull
  deriving DecidableEq

def sendOutcome : Except NetError Bool → SendOutcome
  | .ok delivered => .queued delivered
  | .error (.queueFull _ _ _ _) => .queueFull
  | .error (.invalidReorderWindow _) => .queued false

/-- A network call whose outcome is a value. -/
def sending (action : Action (SimNet × UInt64) NetError Bool) : Action World JournalError SendOutcome :=
  fun world =>
    let (result, net, netOffset) := action (world.net, world.netOffset)
    (.ok (sendOutcome result), { world with net, netOffset })

def linkDraw (bound offset : UInt64) : UInt64 × UInt64 :=
  (env.draw "net" offset % max bound 1, offset + 1)

/-- A configured link draws its jitter and loss; any other pair delivers directly. -/
def transmitOnce (message : Message) (now totalDelay : UInt64) : Action World JournalError SendOutcome := do
  let world ← get
  if world.net.linkConfigured message.source message.target then
    sending (SimNet.trySendViaLink (linkDraw env) message now totalDelay)
  else
    sending ((SimNet.trySendAtWithIdentity message now totalDelay).zoom Prod.fst
      fun state net => (net, state.2))

/-- A partition when the link is partitioned, otherwise a loss. -/
def journalNetLoss (sendId : EntryHash) (target : Nat) (messageId : MessageId) :
    Action World JournalError Unit := do
  let world ← get
  appendFault env task [sendId]
    (if world.net.isPartitioned task target then .partition (actorOf task) (actorOf target) true
    else .dropMessage messageId)

def journalQueueFull (sendId : EntryHash) (target : Nat) (messageId : MessageId) :
    Action World JournalError Unit := do
  let world ← get
  match world.net.queuePolicy task target with
  | .drop => appendFault env task [sendId] (.dropMessage messageId)
  | .block => appendRecorded env task .block [sendId] (.block .yield)

/-- Journals what became of one transmission and tells whether it was delivered. -/
def journalFate (sendId : EntryHash) (target : Nat) (messageId : MessageId) :
    SendOutcome → Action World JournalError Bool
  | .queued true => pure true
  | .queued false => do
      journalNetLoss env task sendId target messageId
      pure false
  | .queueFull => do
      journalQueueFull env task sendId target messageId
      pure false

/-- A queued first transmission with a duplicate fault is sent again; a full link is not. -/
def transmit (message : Message) (now totalDelay : UInt64) : Action World JournalError Bool := do
  let first ← transmitOnce env message now totalDelay
  match first with
  | .queued _ =>
    if duplicateTargets env message.sendId then
      modify (·.markFaultApplied message.sendId)
      appendFault env task [message.sendId] (.duplicateMessage message.messageId 1)
      let second ← transmitOnce env message now totalDelay
      let firstDelivered ← journalFate env task message.sendId message.target message.messageId first
      let secondDelivered ← journalFate env task message.sendId message.target message.messageId second
      pure (firstDelivered || secondDelivered)
    else journalFate env task message.sendId message.target message.messageId first
  | .queueFull => journalFate env task message.sendId message.target message.messageId first

def nextMessageId : Action World JournalError MessageId :=
  fun world =>
    let sequence := (world.sendSeq.lookup task).getD 0
    (.ok { sender := actorOf task, senderSequence := sequence },
      { world with sendSeq := world.sendSeq.insert task (sequence + 1) })

/-- The fates of a journaled send: a dropped event, a scheduled fault, a swarm draw, the network. -/
def dispatch (message : Message) (now baseDelay : UInt64) : Action World JournalError Bool :=
  if message.sendId ∈ env.droppedEvents then do
    appendFault env task [message.sendId] (.dropMessage message.messageId)
    pure true
  else do
    let injection ← injectSendFault env task message.sendId message.messageId
    match injection with
    | .dropped => pure true
    | .untouched => swarmed 0
    | .delayed ticks => swarmed ticks
where
  swarmed (injectedDelay : UInt64) : Action World JournalError Bool := do
    let policy ← swarmSendPolicy env task message.sendId message.messageId
    match policy with
    | .drop => pure true
    | .delay extra =>
      transmit env task message now (saturatingAdd (saturatingAdd baseDelay extra) injectedDelay)
    | .deliver => transmit env task message now (saturatingAdd baseDelay injectedDelay)

def sendBytesInner (target : Nat) (content : Bytes) (baseDelay : UInt64) : Action World JournalError Bool := do
  let world ← get
  let now := world.time.now
  let messageId ← nextMessageId task
  if maxMessageBytes < content.length then
    modify (·.recordJournalError (.invalidPayload
      s!"message of {content.length} bytes exceeds the {maxMessageBytes} byte limit"))
    pure false
  else
    let sent ← recorded (append env task .send []
      (.send { messageId, source := actorOf task, target := actorOf target, originalContent := content }))
    match sent with
    | none => pure false
    | some sendId =>
      dispatch env task { source := task, target, content, sendId, messageId, deliverAt := now } now baseDelay

def sendTimed (target : Nat) (payload delay : UInt64) : Action World JournalError Bool :=
  sendBytesInner env task target (leBytes 8 payload.toNat) delay

def send (target : Nat) (payload : UInt64) : Action World JournalError Bool :=
  sendTimed env task target payload 0

/-- The entry says that the link is partitioned, whatever the toggle makes of it. -/
def applyPartition (source target : Nat) : Action World JournalError EntryHash := do
  let id ← append env task .fault [] (.fault (.partition (actorOf source) (actorOf target) true))
  modify fun world =>
    { world with
      net := world.net.togglePartition (actorOf source).id.toNat (actorOf target).id.toNat }
  pure id

/-! ### Receiving -/

def recvDraw (bound offset : UInt64) : UInt64 × UInt64 :=
  (env.draw "net" offset % bound, offset + 1)

def recvAtEffective (now : UInt64) : Action World JournalError (Option Message) :=
  fun world =>
    if env.reorderDraw then
      let (message, net, netOffset) := world.net.recvAtDrawn (recvDraw env) task now world.netOffset
      (.ok message, { world with net, netOffset })
    else
      let (message, net) := world.net.recvAt task now
      (.ok message, { world with net })

def journalRecv (message : Message) : Action World JournalError Unit :=
  appendRecorded env task .recv [message.sendId]
    (.recv { messageId := message.messageId, source := actorOf message.source
             target := actorOf task, observedContent := message.content })

def recvNow : Action World JournalError (Option UInt64) := do
  let world ← get
  let received ← recvAtEffective env task world.time.now
  match received with
  | none => pure none
  | some message =>
    journalRecv env task message
    pure (some message.payload)

/-! ### Parking and scalar entries -/

def parkSleep (ticks : UInt64) : Action World JournalError Unit := do
  let timerSet ← append env task .timerSet [] (.timerSet 0 ticks)
  modify (·.parkOnTimer task ticks timerSet)

def parkMessage : Action World JournalError Unit := do
  let _ ← append env task .block [] (.block .yield)
  modify (·.parkOnMessage task)

def yieldBlock : Action World JournalError Unit := do
  let _ ← append env task .block [] (.block .yield)
  pure ()

def readClock : Action World JournalError UInt64 := do
  let world ← get
  let _ ← append env task .clockRead [] (.clockRead world.time.now)
  pure world.time.now

def inputStep (generator replay value : UInt64) : Action World JournalError Unit := do
  let _ ← append env task .inputStep [] (.inputStep { generator, replay, value := .unsigned value })
  pure ()

def outcomeSchema : EntryHash :=
  ⟨⟨[0x67, 0xc9, 0x3d, 0x0f, 0xb1, 0x85, 0x81, 0x56, 0xad, 0xf7, 0x35, 0x4e, 0x3e, 0x31, 0xc7, 0x8b,
    0xae, 0xba, 0x7f, 0x50, 0x63, 0x62, 0xce, 0xbf, 0xf5, 0x90, 0x43, 0x64, 0x6a, 0xf2, 0x01, 0xbc],
    rfl⟩⟩

def assertSchema : EntryHash :=
  ⟨⟨[0x2b, 0x60, 0xdd, 0xa5, 0xdb, 0x69, 0x7b, 0x0a, 0x05, 0xe0, 0x85, 0xf2, 0x38, 0xdd, 0xa7, 0x58,
    0xfb, 0x08, 0x94, 0x91, 0x78, 0xd4, 0x7a, 0xb6, 0xb0, 0x00, 0x70, 0x76, 0x06, 0xda, 0x35, 0x26],
    rfl⟩⟩

def assertEntry (passed : Bool) : Action World JournalError Unit := do
  let _ ← append env task .assert []
    (.assert { predicate := assertSchema, passed, detail := .unsigned (UInt64.ofNat passed.toNat) })
  pure ()

def outcome (value : UInt64) : Action World JournalError EntryHash :=
  append env task .outcome [] (.outcome { schema := outcomeSchema, value := .unsigned value })

def outcomeDone : Action World JournalError Unit := do
  let _ ← append env task .outcome [] (.outcome { schema := outcomeSchema, value := .text "done" })
  pure ()

/-! ### Storage -/

def storage {α : Type} (action : Action (Journal × SimFs) JournalError α) : Action World JournalError α :=
  action.zoom (fun world => (world.journal, world.fs)) fun world (journal, fs) => { world with journal, fs }

/-- The storage journals on its own, so its entry is counted and announced afterwards. -/
def noteStored (kind : EntryKind) (id : Option EntryHash) : Action World JournalError Unit := do
  modify (·.cover (actorOf task))
  notifyEntry env (actorOf task) kind task id

def fsCrashed : Action World JournalError Unit :=
  modify fun world =>
    { world with fs := if env.fsJournaling.isSome then world.fs.crashJournaled else world.fs.crash }

/-- An operator the storage refuses is reported under `label`. -/
def applyCrash (label : String) (operation : CrashOperation) : Action World JournalError Unit :=
  fun world =>
    match world.fs.applyCrashOperation env.fromUtf8Lossy operation with
    | .ok fs => (.ok (), { world with fs })
    | .error fault => (.error (.invalidPayload (label ++ toString fault)), world)

/-- The operator of a crash fault at a write to `path`; an unknown crash state has none. -/
def crashOperationFor (path : String) : SimFault → Option (Except UInt64 CrashOperation)
  | .crash _ => some (.ok .dropAllUnsynced)
  | .corrupt write xorMask => some (.ok (.corruptRange write 0 (leBytes 8 xorMask.toNat)))
  | .crashState write state =>
    some (if state = 0 then .ok .dropAllUnsynced
      else if state = 1 then .ok (.dropPaths [pathRef env.blake3 path])
      else if state = 2 then .ok (.tornWrite write 0)
      else .error state)
  | _ => none

def scheduledOperation (path : String) (fault : Option SimFault) :
    Except JournalError (Option CrashOperation) :=
  match fault.bind (crashOperationFor env path) with
  | some (.ok operation) => .ok (some operation)
  | some (.error identifier) =>
    .error (.invalidPayload s!"unknown crash-state identifier {identifier}")
  | none => .ok none

def journalCrash (operation : CrashOperation) : Action World JournalError Unit := do
  let _ ← append env task .fault [] (.fault (.crashActor (actorOf task) operation))
  pure ()

def impliedOperation (label : String) : Option CrashOperation → Except JournalError CrashOperation
  | some operation => .ok operation
  | none => .error (.invalidPayload (label ++ " fault implies a crash operation"))

/-- Applies the first scheduled fault aimed at a completed write. -/
def injectWriteFault (writeId : EntryHash) (path : String) : Action World JournalError Unit := do
  let injection := scheduleInjectionFor env writeId
  let operation ← ofExcept (scheduledOperation env path injection)
  match injection with
  | some (.crash _) =>
    modify (·.markFaultApplied writeId)
    fsCrashed env
    journalCrash env task .dropAllUnsynced
  | some (.corrupt _ _) =>
    let operation ← ofExcept (impliedOperation "corrupt" operation)
    modify (·.markFaultApplied writeId)
    applyCrash env "scheduled corrupt rejected: " operation
    journalCrash env task operation
  | some (.crashState write _) =>
    modify (·.markFaultApplied write)
    let operation ← ofExcept (impliedOperation "crash-state" operation)
    applyCrash env "scheduled crash-state rejected: " operation
    journalCrash env task operation
  | _ => pure ()

/-- The operator a swarm crash draws for the write it follows, with its class. -/
def swarmOperation (path : String) (writeId : EntryHash) (choice : UInt64) : CrashOperation × Nat :=
  match (choice % 4).toNat with
  | 0 => (.dropAllUnsynced, 0)
  | 1 => (.dropPaths [pathRef env.blake3 path], 1)
  | 2 => (.tornWrite writeId 4, 2)
  | _ => (.bitFlip writeId 0 0, 4)

/-- The draws happen whether or not the budget of fault classes still allows a crash. -/
def maybeCrashOnWrite (path : String) (writeId : EntryHash) : Action World JournalError Unit := do
  let crashes ← chance (drawFs env) env.swarm.crashProbability
  if crashes then
    let choice ← drawFs env
    let (operation, stateIndex) := swarmOperation env path writeId choice
    let world ← get
    if max env.swarm.faultClassesPerRun.toNat 1 ≤ world.faultClassesUsed.length then pure ()
    else
      modify fun world =>
        { world with faultClassesUsed := world.faultClassesUsed.insert stateIndex }
      let applied ← recorded (applyCrash env "swarm crash operator rejected: " operation)
      match applied with
      | none => pure ()
      | some () => journalCrash env task operation
  else pure ()

def fsWrite (path : String) (value : UInt64) : Action World JournalError EntryHash := do
  let id ← storage (SimFs.write env.blake3 (actorOf task) path value)
  noteStored env task .fsWrite (some id)
  injectWriteFault env task id path
  maybeCrashOnWrite env task path id
  pure id

/-- The barrier fails only with an error of the journal, which it returns as it is. -/
def barrierFault : SimFsError → JournalError
  | .journal fault => fault
  | other => other.intoJournal

def fsFsync : Action World JournalError EntryHash := do
  let id ← storage ((SimFs.fsync env.blake3 (actorOf task)).mapError barrierFault)
  noteStored env task .fsFsync (some id)
  pure id

def fsRead (path : String) : Action World JournalError (Option UInt64) := do
  let value ← storage (SimFs.read env.blake3 (actorOf task) path)
  let world ← get
  noteStored env task .fsRead (world.journal.headForActor (actorOf task))
  pure value

/-- The storage crashes even when the fault cannot be journaled. -/
def fsCrash : Action World JournalError Unit := do
  appendFault env task [] (.crashActor (actorOf task) .dropAllUnsynced)
  fsCrashed env

end Boundary

end Ldgr.Sim
