import Ldgr.Base.SortedMap
import Ldgr.Base.Word
import Ldgr.Format.Entry

/-! Run configuration shared by the simulator and the explorer. -/

namespace Ldgr.Sim

open Base Format

/-! ## Probabilities -/

inductive ProbabilityError where
  | nonFinite
  | outOfRange
  deriving DecidableEq

/-- A probability from zero to one; a negative zero is none. -/
structure Probability where
  value : Float
  finite : value.isFinite = true
  nonNegative : Cbor.isSignNegative value = false
  atMostOne : ¬ 1.0 < value

namespace Probability

def new (value : Float) : Except ProbabilityError Probability :=
  if finite : value.isFinite = true then
    if inRange : Cbor.isSignNegative value = false ∧ ¬ 1.0 < value then
      .ok { value, finite, nonNegative := inRange.1, atMostOne := inRange.2 }
    else .error .outOfRange
  else .error .nonFinite

def zero : Probability where
  value := 0.0
  finite := by decide +kernel
  nonNegative := by decide +kernel
  atMostOne := by decide +kernel

def one : Probability where
  value := 1.0
  finite := by decide +kernel
  nonNegative := by decide +kernel
  atMostOne := by decide +kernel

end Probability

/-! ## Network -/

inductive QueueFullPolicy where
  | drop
  | block
  deriving DecidableEq

def maxReorderWindow : UInt64 := 65536

structure LinkConfig where
  baseDelay : UInt64
  /-- A send draws up to this many extra ticks. -/
  jitter : UInt64
  lossProbability : Probability
  /-- Zero uses the window of the whole network. -/
  reorderWindow : UInt64
  capacity : Option UInt64
  queuePolicy : QueueFullPolicy

def LinkConfig.default : LinkConfig :=
  { baseDelay := 0, jitter := 0, lossProbability := .zero, reorderWindow := 0, capacity := none
    queuePolicy := .drop }

/-- Host names and the actors they resolve to. -/
abbrev DnsTable := SortedMap String UInt64

/-! ## Faults and policies -/

inductive SimFault where
  | drop (id : EntryHash)
  | delay (send : EntryHash) (ticks : UInt64)
  | partition (source target : ActorId)
  | crash (id : EntryHash)
  | corrupt (write : EntryHash) (xorMask : UInt64)
  | crashState (write : EntryHash) (state : UInt64)
  | duplicate (send : EntryHash)
  deriving DecidableEq

inductive Policy where
  | random
  /-- At most `priorityChanges` preemptions in a run. -/
  | pct (priorityChanges : UInt64)
  | bandit (explorationConstant : Float) (pctMix : Probability)
  | replay
  | dpor

structure SwarmConfig where
  dropProbability : Probability
  delayProbability : Probability
  maxDelayTicks : UInt64
  crashProbability : Probability
  faultClassesPerRun : UInt64

def SwarmConfig.default : SwarmConfig :=
  { dropProbability := .zero, delayProbability := .zero, maxDelayTicks := 0
    crashProbability := .zero, faultClassesPerRun := 2 }

inductive JournalingMode where
  | writeback
  | ordered
  | data
  deriving DecidableEq

/-! ## Run configuration -/

/-- The compile-time feature the configuration depends on. -/
structure Features where
  fsJournaling : Bool

/-- A build without the feature has no journaling mode to set. -/
abbrev FsJournaling (features : Features) :=
  { mode : Option JournalingMode // features.fsJournaling = false → mode = none }

theorem FsJournaling.none_allowed (features : Features) :
    features.fsJournaling = false → (none : Option JournalingMode) = none :=
  fun _ => rfl

structure RunConfig (features : Features) where
  seed : EntryHash
  policy : Policy
  maxSteps : UInt64
  droppedEvents : List EntryHash
  swarm : SwarmConfig
  links : List (UInt64 × UInt64 × LinkConfig)
  dns : DnsTable
  faultSchedule : List SimFault
  fsJournaling : FsJournaling features
  monitor : Bool
  reorderDraw : Bool
  /-- Without a cap, the hard limit of the format holds. -/
  maxFileExtent : Option UInt64
  maxResidentBytes : Option UInt64

def RunConfig.default (features : Features) : RunConfig features :=
  { seed := ⟨⟨List.replicate 32 0, length_zeros⟩⟩, policy := .random, maxSteps := 10000
    droppedEvents := [], swarm := .default, links := [], dns := .empty, faultSchedule := []
    fsJournaling := ⟨none, FsJournaling.none_allowed features⟩, monitor := true, reorderDraw := false
    maxFileExtent := none, maxResidentBytes := none }

end Ldgr.Sim
