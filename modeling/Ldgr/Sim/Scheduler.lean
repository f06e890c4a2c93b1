import Ldgr.Sim.Config

/-! Scheduling policies: seeded, priority-based, novelty bandit, and replay of recorded decisions. -/

namespace Ldgr.Sim

open Base Format

/-! ## Novelty -/

/-- What the novelty model is told about one journaled entry. -/
structure Emission where
  actor : ActorId
  kind : EntryKind
  task : Nat
  /-- Hash of the vector clock of the entry. -/
  signature : Option UInt64

/-- Novelty bookkeeping by task, never by ready position. -/
structure NoveltyModel where
  seenTransitions : List (EntryKind × EntryKind)
  seenActorPairs : List (ActorId × ActorId)
  seenBranches : List UInt64
  lastEvent : Option (ActorId × EntryKind)
  taskPullCounts : AList fun _ : Nat => Nat
  taskRewards : AList fun _ : Nat => Float
  totalPulls : Nat

namespace NoveltyModel

def new : NoveltyModel :=
  { seenTransitions := [], seenActorPairs := [], seenBranches := [], lastEvent := none
    taskPullCounts := ∅, taskRewards := ∅, totalPulls := 0 }

/-- New transitions, new actor pairs and the neighbourhood of a fault count. -/
def reward (model : NoveltyModel) (emission : Emission) : Float :=
  let adjacent := match model.lastEvent with
    | none => 0.0
    | some (lastActor, lastKind) =>
      (if model.seenTransitions.contains (lastKind, emission.kind) then 0.0 else 1.0) +
        (if model.seenActorPairs.contains (lastActor, emission.actor) then 0.0 else 0.5) +
        (if lastKind = .fault then 1.0 else 0.0)
  let fault := if emission.kind = .fault then 1.0 else 0.0
  let branch := match emission.signature with
    | some signature => if model.seenBranches.contains signature then 0.0 else 1.0
    | none => 0.0
  adjacent + fault + branch

def recordEmission (model : NoveltyModel) (emission : Emission) : NoveltyModel :=
  { seenTransitions := match model.lastEvent with
      | some (_, lastKind) => (lastKind, emission.kind) :: model.seenTransitions
      | none => model.seenTransitions
    seenActorPairs := match model.lastEvent with
      | some (lastActor, _) => (lastActor, emission.actor) :: model.seenActorPairs
      | none => model.seenActorPairs
    seenBranches := emission.signature.toList ++ model.seenBranches
    lastEvent := some (emission.actor, emission.kind)
    taskPullCounts := model.taskPullCounts.insert emission.task
      ((model.taskPullCounts.lookup emission.task).getD 0 + 1)
    taskRewards := model.taskRewards.insert emission.task
      (((model.taskRewards.lookup emission.task).getD 0.0) * 0.9 + model.reward emission * 0.1)
    totalPulls := model.totalPulls + 1 }

/-- Upper confidence bound of a task; a task never pulled comes first. -/
def ucb1Score (model : NoveltyModel) (task : Nat) (exploration : Float) : Float :=
  match (model.taskPullCounts.lookup task).getD 0 with
  | 0 => 1.0 / 0.0
  | pulls =>
    (model.taskRewards.lookup task).getD 0.0 +
      exploration * (Float.log (Float.ofNat model.totalPulls) / Float.ofNat pulls).sqrt

end NoveltyModel

/-! ## State -/

structure StepTrace where
  step : Nat
  ready : List Nat
  chosen : Nat
  journalLen : Nat
  deriving DecidableEq

inductive ReplayViolation where
  | outOfRange (step value readyLen : Nat)
  | exhausted (step replayLen : Nat)
  | trailing (trailing steps : Nat)
  deriving DecidableEq

structure Scheduler where
  policy : Policy
  decisions : List Nat
  replay : List Nat
  fallback : Policy
  strict : Bool
  violation : Option ReplayViolation
  pctPriorities : AList fun _ : Nat => UInt64
  pctPreemptions : Nat
  pctLastChosen : Option Nat
  pctGeneration : UInt64
  novelty : NoveltyModel
  trace : List StepTrace
  traceEnabled : Bool

def Policy.isReplay : Policy → Bool
  | .replay => true
  | _ => false

def Policy.isBandit : Policy → Bool
  | .bandit _ _ => true
  | _ => false

def Policy.isDpor : Policy → Bool
  | .dpor => true
  | _ => false

namespace Scheduler

def start (strict : Bool) (policy : Policy) (replay : List Nat) (fallback : Policy) : Scheduler :=
  { policy, decisions := [], replay, fallback, strict, violation := none, pctPriorities := ∅
    pctPreemptions := 0, pctLastChosen := none, pctGeneration := 0, novelty := .new, trace := []
    traceEnabled := policy.isDpor }

def withFallback : Policy → List Nat → Policy → Scheduler :=
  start false

def withFallbackStrict : Policy → List Nat → Policy → Scheduler :=
  start true

variable (scheduler : Scheduler)

/-- Whether novelty scores can be consulted in this run. -/
def noveltyActive : Bool :=
  match scheduler.policy with
  | .replay => scheduler.fallback.isBandit
  | policy => policy.isBandit

def onEntryEmitted (emission : Emission) : Scheduler :=
  { scheduler with novelty := scheduler.novelty.recordEmission emission }

/-- The novelty model hears of the entries only where its scores can matter. -/
def informed (emissions : List Emission) : Scheduler :=
  if scheduler.noveltyActive then emissions.foldl onEntryEmitted scheduler else scheduler

/-! ## Selection

`draw label offset` is one number of the seed tree. An answer `none` stands for the division by zero
of a tie break among no candidates. -/

section Selection

variable (draw : String → UInt64 → UInt64)

def mixOffsetBit : UInt64 := (1 : UInt64) <<< 63

def pctOffsetBit : UInt64 := (1 : UInt64) <<< 62

def pctPriorityDraw (generation : UInt64) (task : Nat) : UInt64 :=
  draw "pct" ((generation ^^^ 0x9E3779B97F4A7C15) * 0x100000001B3 + UInt64.ofNat task)

def pctBest (priorities : AList fun _ : Nat => UInt64) (ready : List Nat) : Nat :=
  let priority (task : Nat) := (priorities.lookup task).getD 0
  (ready.zipIdx.foldl (fun (best : Nat × UInt64) (task, index) =>
      if index = 0 ∨ best.2 < priority task then (index, priority task) else best) (0, 0)).1

/-- At most `priorityChanges` preemptions in a run, then one fixed order of priorities. -/
def selectPct (ready : List Nat) (priorityChanges : Nat) (scheduler : Scheduler) : Nat × Scheduler :=
  let known := ready.foldl (fun priorities task =>
    if (priorities.lookup task).isSome then priorities
    else priorities.insert task (pctPriorityDraw draw scheduler.pctGeneration task))
    scheduler.pctPriorities
  let previousReady := scheduler.pctLastChosen.any (· ∈ ready)
  let after :=
    if scheduler.pctPreemptions < priorityChanges ∧ 1 < ready.length ∧ previousReady then
      let generation := scheduler.pctGeneration + 1
      { scheduler with
        pctGeneration := generation
        pctPreemptions := scheduler.pctPreemptions + 1
        pctPriorities := ready.foldl (fun priorities task =>
          priorities.insert task (pctPriorityDraw draw generation task)) known }
    else { scheduler with pctPriorities := known }
  let best := pctBest after.pctPriorities ready
  (best, { after with pctLastChosen := ready[best]? })

/-- Scores that tie: infinities of one sign, or finite scores that are close. -/
def scoresTie (score best : Float) : Bool :=
  (score.isInf && best.isInf && Cbor.isSignNegative score == Cbor.isSignNegative best) ||
    (!score.isInf && !best.isInf && (score - best).abs < 1e-9)

def banditBest (novelty : NoveltyModel) (exploration : Float) (ready : List Nat) : List Nat :=
  (ready.zipIdx.foldl (fun (best : Float × List Nat) (task, index) =>
      let score := novelty.ucb1Score task exploration
      if scoresTie score best.1 then (best.1, best.2 ++ [index])
      else if best.1 < score then (score, [index])
      else best) (-(1.0 / 0.0), [])).2

def selectBandit (novelty : NoveltyModel) (ready : List Nat) (step : Nat) (exploration : Float) : Option Nat :=
  match banditBest novelty exploration ready with
  | [] => none
  | [index] => some index
  | candidates => candidates[(draw "bandit" (UInt64.ofNat step)).toNat % candidates.length]?

def lastGreatest (values : List Nat) : Nat :=
  (values.zipIdx.foldl (fun (best : Nat × Nat) (value, index) =>
      if best.2 ≤ value then (index, value) else best) (0, 0)).1

def selectBanditPct (ready : List Nat) (step : Nat) : Nat :=
  let changes := max (ready.length / 2) 1
  let priorities := (List.range changes).foldl (fun priorities change =>
    let offset := pctOffsetBit ||| (UInt64.ofNat step <<< 10) ||| UInt64.ofNat change
    priorities.set ((draw "bandit" offset).toNat % ready.length) (changes - change + 1))
    (List.replicate ready.length 0)
  lastGreatest priorities

/-- A replay policy selects like the random one, so the fallback cannot recurse. -/
def selectFallback (ready : List Nat) (step : Nat) (policy : Policy) (scheduler : Scheduler) :
    Option Nat × Scheduler :=
  match policy with
  | .random | .dpor | .replay =>
    (some ((draw "sched" (UInt64.ofNat step)).toNat % ready.length), scheduler)
  | .pct priorityChanges =>
    let (best, after) := selectPct draw ready priorityChanges.toNat scheduler
    (some best, after)
  | .bandit exploration pctMix =>
    let mix := (draw "bandit" (UInt64.ofNat step ||| mixOffsetBit) % 100).toFloat / 100.0
    if mix < pctMix.value then (some (selectBanditPct draw ready step), scheduler)
    else (selectBandit draw scheduler.novelty ready step exploration, scheduler)

def record (ready : List Nat) (step choice : Nat) : Scheduler :=
  { scheduler with
    trace :=
      if scheduler.traceEnabled then
        scheduler.trace ++ [{ step, ready, chosen := choice, journalLen := 0 }]
      else scheduler.trace
    decisions := scheduler.decisions ++ [choice] }

/-- A strict replay neither normalizes a decision nor falls back: it notes a violation. -/
def chooseStrict (ready : List Nat) (step : Nat) (scheduler : Scheduler) : Nat × Scheduler :=
  match scheduler.replay[step]? with
  | none => (0, { scheduler with violation := some (.exhausted step scheduler.replay.length) })
  | some value =>
    if ready.length ≤ value then
      (0, { scheduler with violation := some (.outOfRange step value ready.length) })
    else (value, scheduler.record ready step value)

def select (ready : List Nat) (step : Nat) (scheduler : Scheduler) : Option Nat × Scheduler :=
  match scheduler.policy with
  | .replay =>
    match scheduler.replay[step]? with
    | some value => (some (value % ready.length), scheduler)
    | none => selectFallback draw ready step scheduler.fallback scheduler
  | policy => selectFallback draw ready step policy scheduler

/-- A position of the non-empty list `ready`. -/
def choose (ready : List Nat) (step : Nat) (scheduler : Scheduler) : Option Nat × Scheduler :=
  if scheduler.strict && scheduler.policy.isReplay then
    let (choice, after) := chooseStrict ready step scheduler
    (some choice, after)
  else
    match select draw ready step scheduler with
    | (none, after) => (none, after)
    | (some choice, after) => (some choice, after.record ready step choice)

end Selection

def noteStepJournalLen (journalLen : Nat) : Scheduler :=
  { scheduler with
    trace := scheduler.trace.modify (scheduler.trace.length - 1) fun last => { last with journalLen } }

/-- Recorded decisions that a strict replay left over. -/
def checkTrailing (steps : Nat) : Option ReplayViolation :=
  if scheduler.strict && steps < scheduler.replay.length then
    some (.trailing (scheduler.replay.length - steps) steps)
  else none

end Scheduler

end Ldgr.Sim
