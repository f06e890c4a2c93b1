import Ldgr.Sim.ConfigCanonical

/-! The in-memory task queue: leases with deadlines and an attempt budget for each task. -/

namespace Ldgr.Worker

open Base Format Sim

def defaultMaxAttempts : UInt32 := 3

inductive TaskStatus where
  | queued
  | leased
  | failed
  | cancelled
  | done
  deriving DecidableEq

def TaskStatus.isTerminal : TaskStatus → Bool
  | failed | cancelled | done => true
  | queued | leased => false

structure Task (features : Features) where
  id : String
  runConfig : RunConfig features
  workload : String
  runConfigHash : Option EntryHash
  executionIdentity : Option EntryHash
  attempts : UInt32
  maxAttempts : UInt32
  status : TaskStatus

variable {features : Features}

def Task.new (id : String) (runConfig : RunConfig features) (workload : String) : Task features where
  id := id
  runConfig := runConfig
  workload := workload
  runConfigHash := none
  executionIdentity := none
  attempts := 0
  maxAttempts := defaultMaxAttempts
  status := .queued

inductive AttemptOutcome where
  | retried (attempts maxAttempts : UInt32)
  | exhausted (attempts : UInt32)
  deriving DecidableEq

structure InMemoryQueue (features : Features) where
  queue : List (Task features)
  leaseTimeout : Nat
  /-- Leased tasks under their ids, with the deadline of the lease. -/
  leased : AList fun _ : String => Task features × Nat
  failed : List (Task features)
  cancelled : List (Task features)
  done : List (Task features)

namespace InMemoryQueue

def new (leaseTimeout : Nat) : InMemoryQueue features where
  queue := []
  leaseTimeout := leaseTimeout
  leased := ∅
  failed := []
  cancelled := []
  done := []

/-- The hash is left out for a configuration the encoder rejects. -/
def push (blake3 : Bytes → EntryHash) (task : Task features) (queue : InMemoryQueue features) :
    InMemoryQueue features :=
  { queue with
    queue := queue.queue ++ [{ task with
      runConfigHash := (task.runConfig.canonicalHash blake3).toOption
      status := .queued }] }

def ack (taskId : String) (queue : InMemoryQueue features) : InMemoryQueue features :=
  match queue.leased.lookup taskId with
  | some (task, _) =>
    { queue with
      leased := queue.leased.erase taskId
      done := queue.done ++ [{ task with status := .done }] }
  | none => queue

/-- Charges one attempt and routes the task by what is left of its budget. -/
def retireOrRequeue (task : Task features) (queue : InMemoryQueue features) :
    AttemptOutcome × InMemoryQueue features :=
  let attempts := task.attempts + 1
  if task.maxAttempts ≤ attempts then
    (.exhausted attempts,
      { queue with failed := queue.failed ++ [{ task with attempts, status := .failed }] })
  else
    (.retried attempts task.maxAttempts,
      { queue with queue := queue.queue ++ [{ task with attempts, status := .queued }] })

def recordTakenTaskFailure (task : Task features) (queue : InMemoryQueue features) :
    AttemptOutcome × InMemoryQueue features :=
  retireOrRequeue task queue

def reportFailure (taskId : String) (queue : InMemoryQueue features) :
    Option AttemptOutcome × InMemoryQueue features :=
  match queue.leased.lookup taskId with
  | some (task, _) =>
    let (outcome, after) := retireOrRequeue task { queue with leased := queue.leased.erase taskId }
    (some outcome, after)
  | none => (none, queue)

def extendLease (taskId : String) (extra : Nat) (queue : InMemoryQueue features) :
    Bool × InMemoryQueue features :=
  match queue.leased.lookup taskId with
  | some (task, deadline) =>
    (true, { queue with leased := queue.leased.insert taskId (task, deadline + extra) })
  | none => (false, queue)

/-- The first waiting task with the id is taken out, or the leased one. -/
def withdraw (taskId : String) (queue : InMemoryQueue features) :
    Option (Task features × InMemoryQueue features) :=
  match queue.queue.find? fun task => decide (task.id = taskId) with
  | some task =>
    some (task, { queue with queue := queue.queue.eraseP fun task => decide (task.id = taskId) })
  | none =>
    match queue.leased.lookup taskId with
    | some (task, _) => some (task, { queue with leased := queue.leased.erase taskId })
    | none => none

def cancel (taskId : String) (queue : InMemoryQueue features) : Bool × InMemoryQueue features :=
  match queue.withdraw taskId with
  | some (task, after) =>
    (true, { after with cancelled := after.cancelled ++ [{ task with status := .cancelled }] })
  | none => (false, queue)

def takeById (taskId : String) (queue : InMemoryQueue features) :
    Option (Task features) × InMemoryQueue features :=
  match queue.withdraw taskId with
  | some (task, after) => (some task, after)
  | none => (none, queue)

/-- The leases whose deadline has come. The leases are visited in the order of `keys`, which the map
does not fix. -/
def expired (keys : List String) (now : Nat) (queue : InMemoryQueue features) : List String :=
  keys.filter fun id =>
    match queue.leased.lookup id with
    | some (_, deadline) => decide (deadline ≤ now)
    | none => false

def reclaim (queue : InMemoryQueue features) (taskId : String) : InMemoryQueue features :=
  match queue.leased.lookup taskId with
  | some (task, _) => (retireOrRequeue task { queue with leased := queue.leased.erase taskId }).2
  | none => queue

def reclaimExpired (keys : List String) (now : Nat) (queue : InMemoryQueue features) : InMemoryQueue features :=
  (queue.expired keys now).foldl reclaim queue

/-- Leases the next waiting task. The clock is read once for the deadlines that have come and once
more for the new one. -/
def pull (keys : List String) (now later : Nat) (queue : InMemoryQueue features) :
    Option (Task features) × InMemoryQueue features :=
  let reclaimed := queue.reclaimExpired keys now
  match reclaimed.queue with
  | [] => (none, reclaimed)
  | task :: rest =>
    let task := { task with status := TaskStatus.leased }
    (some task,
      { reclaimed with
        queue := rest
        leased := reclaimed.leased.insert task.id (task, later + reclaimed.leaseTimeout) })

end InMemoryQueue

end Ldgr.Worker
