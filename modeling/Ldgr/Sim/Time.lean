import Ldgr.Base.Word
import Ldgr.Format.Entry

/-! Discrete virtual time and the timer queue. -/

namespace Ldgr.Sim

open Base Format

structure Timer where
  deadline : UInt64
  sequence : Nat
  task : Nat
  enabler : Option EntryHash
  deriving DecidableEq

/-- Timers leave the queue by deadline, then in the order they were set. -/
def Timer.key (timer : Timer) : ℕ ×ₗ ℕ :=
  toLex (timer.deadline.toNat, timer.sequence)

def Timer.Before (left right : Timer) : Prop :=
  left.key ≤ right.key

instance : DecidableRel Timer.Before :=
  fun left right => inferInstanceAs (Decidable (left.key ≤ right.key))

instance : Std.Total Timer.Before where
  total left right := le_total left.key right.key

instance : IsTrans Timer Timer.Before where
  trans _ _ _ := le_trans

/-- The heap, as the list of its timers in the order they are popped. -/
structure TimerQueue where
  timers : List Timer
  ordered : timers.Pairwise Timer.Before
  deriving DecidableEq

namespace TimerQueue

def empty : TimerQueue :=
  ⟨[], .nil⟩

def push (queue : TimerQueue) (timer : Timer) : TimerQueue :=
  ⟨queue.timers.orderedInsert Timer.Before timer, queue.ordered.orderedInsert timer queue.timers⟩

def peek (queue : TimerQueue) : Option Timer :=
  queue.timers.head?

def due (queue : TimerQueue) (now : UInt64) : List Timer :=
  queue.timers.takeWhile (·.deadline ≤ now)

def afterDue (queue : TimerQueue) (now : UInt64) : TimerQueue :=
  ⟨queue.timers.dropWhile (·.deadline ≤ now), queue.ordered.sublist (List.dropWhile_sublist _)⟩

end TimerQueue

structure TimerFired where
  task : Nat
  enabler : Option EntryHash
  deriving DecidableEq

def Timer.fired (timer : Timer) : TimerFired :=
  { task := timer.task, enabler := timer.enabler }

structure VirtualTime where
  now : UInt64
  sequence : Nat
  timers : TimerQueue
  deriving DecidableEq

namespace VirtualTime

def new : VirtualTime :=
  { now := 0, sequence := 0, timers := .empty }

def fromTicks (now : UInt64) : VirtualTime :=
  { now, sequence := 0, timers := .empty }

variable (time : VirtualTime)

def setWithEnabler (delay : UInt64) (task : Nat) (enabler : Option EntryHash) : VirtualTime :=
  { time with
    sequence := time.sequence + 1
    timers := time.timers.push
      { deadline := saturatingAdd time.now delay, sequence := time.sequence + 1, task, enabler } }

def nextDeadline : Option UInt64 :=
  time.timers.peek.map (·.deadline)

/-- Moves to `target`, which lies ahead, and fires every timer whose deadline has arrived. -/
def advanceToWithEnablers (target : UInt64) : List TimerFired × VirtualTime :=
  ((time.timers.due target).map Timer.fired,
    { time with now := target, timers := time.timers.afterDue target })

/-- Moves to the next deadline and fires every timer of that deadline. -/
def advanceWithEnablers : List TimerFired × VirtualTime :=
  match time.timers.peek with
  | none => ([], time)
  | some next =>
    ((time.timers.timers.takeWhile (·.deadline = next.deadline)).map Timer.fired,
      { time with
        now := next.deadline
        timers := ⟨time.timers.timers.dropWhile (·.deadline = next.deadline),
          time.timers.ordered.sublist (List.dropWhile_sublist _)⟩ })

def advanceTo (deadline : UInt64) : VirtualTime :=
  { time with now := deadline }

end VirtualTime

end Ldgr.Sim
