import Ldgr.Format.Entry

/-! The in-process network: every locked section and every notification is one step of its task. -/

namespace Ldgr.Rt

open Format List

structure Message where
  source : ActorId
  target : ActorId
  payload : UInt64
  deriving DecidableEq

/-- Where a task stands between two steps. -/
inductive Phase where
  | ready
  /-- Its message is queued, the waiters are not told yet. -/
  | pushed
  /-- In a receive, with a future that was made in the locked section. -/
  | waiting (actor : ActorId) (notified : Bool)
  | finished
  deriving DecidableEq

/-- The network with its tasks, and what was queued and received so far. -/
structure Network where
  queue : List Message := []
  partitions : List (ActorId × ActorId)
  tasks : List Phase
  queued : List Message := []
  received : List Message := []

/-- What a ready task does next. -/
inductive Call where
  | send (message : Message)
  | recv (actor : ActorId)
  | finish

namespace Network

def isFor (actor : ActorId) (message : Message) : Bool :=
  message.target = actor

/-- The locked section of a send; a partitioned link takes nothing. -/
def send (net : Network) (task : Nat) (message : Message) : Network :=
  if (message.source, message.target) ∈ net.partitions then net
  else { net with queue := net.queue ++ [message], queued := net.queued ++ [message]
                  tasks := net.tasks.set task .pushed }

/-- Completes every future that exists. -/
def notifyWaiters (net : Network) : Network :=
  { net with tasks := net.tasks.map fun
      | .waiting actor _ => .waiting actor true
      | phase => phase }

/-- The locked section of a receive: the oldest message for the actor, or a new future. -/
def recv (net : Network) (task : Nat) (actor : ActorId) : Network :=
  match net.queue.find? (isFor actor) with
  | some message => { net with queue := net.queue.eraseP (isFor actor), received := net.received ++ [message]
                               tasks := net.tasks.set task .ready }
  | none => { net with tasks := net.tasks.set task (.waiting actor false) }

def step (net : Network) (task : Nat) (call : Call) : Option Network :=
  match net.tasks[task]?, call with
  | some .ready, .send message => some (net.send task message)
  | some .ready, .recv actor => some (net.recv task actor)
  | some .ready, .finish => some { net with tasks := net.tasks.set task .finished }
  | some .pushed, _ =>
    let told := net.notifyWaiters
    some { told with tasks := told.tasks.set task .ready }
  | some (.waiting actor true), _ => some (net.recv task actor)
  | _, _ => none

/-- The states any number of tasks lead to, whatever they call and however they interleave. -/
inductive Reached (partitions : List (ActorId × ActorId)) : Network → Prop where
  | start (count : Nat) : Reached partitions { partitions, tasks := replicate count .ready }
  | step {net after : Network} {task : Nat} {call : Call} :
      Reached partitions net → net.step task call = some after → Reached partitions after

/-! ## Invariants -/

/-- A message for an unnotified waiter is one whose sender has not notified yet. -/
def Watched (net : Network) : Prop :=
  ∀ actor, Phase.waiting actor false ∈ net.tasks → ∀ message ∈ net.queue, message.target = actor →
    Phase.pushed ∈ net.tasks

/-- What an actor received and what waits for it is what was queued for it, in this order. -/
def Delivers (net : Network) : Prop :=
  ∀ actor, net.queued.filter (isFor actor) = net.received.filter (isFor actor) ++ net.queue.filter (isFor actor)

theorem mem_set_of_ne {tasks : List Phase} {task : Nat} {before phase : Phase} (found : tasks[task]? = some before)
    (next : Phase) (member : phase ∈ tasks) (other : before ≠ phase) : phase ∈ tasks.set task next := by
  obtain ⟨index, at_⟩ := mem_iff_getElem?.mp member
  refine mem_iff_getElem?.mpr ⟨index, ?_⟩
  rw [getElem?_set_ne, at_]
  rintro rfl
  cases found.symm.trans at_
  exact other rfl

variable {net after : Network} {task : Nat} {actor : ActorId}

/-- A task that is not about to notify takes a step that neither queues a message nor waits for a queued one. -/
theorem Watched.move {before next : Phase} (watched : net.Watched) (found : net.tasks[task]? = some before)
    (quiet : before ≠ .pushed) {queue : List Message} (fewer : queue ⊆ net.queue)
    (fresh : ∀ actor, next = .waiting actor false → ∀ message ∈ queue, message.target ≠ actor)
    (same : after.tasks = net.tasks.set task next) (left : after.queue = queue) : after.Watched := by
  intro actor waits message queued aimed
  rw [left] at queued
  rw [same] at waits ⊢
  rcases mem_or_eq_of_mem_set waits with earlier | new
  · exact mem_set_of_ne found next (watched actor earlier message (fewer queued) aimed) quiet
  · exact absurd aimed (fresh actor new.symm message queued)

theorem recv_watched {before : Phase} (watched : net.Watched) (found : net.tasks[task]? = some before)
    (quiet : before ≠ .pushed) : (net.recv task actor).Watched := by
  unfold recv
  cases oldest : net.queue.find? (isFor actor) with
  | some message => exact watched.move found quiet eraseP_subset (by simp) rfl rfl
  | none =>
    refine watched.move found quiet (Subset.refl _) (fun waited same message queued aimed => ?_) rfl rfl
    cases same
    exact find?_eq_none.mp oldest message queued (decide_eq_true aimed)

theorem recv_delivers (delivers : net.Delivers) : (net.recv task actor).Delivers := by
  unfold recv
  cases oldest : net.queue.find? (isFor actor) with
  | none => exact delivers
  | some message =>
    intro other
    obtain ⟨aimed, front, rest, split, apart⟩ := find?_eq_some_iff_append.mp oldest
    have others : ∀ earlier ∈ front, ¬ isFor actor earlier = true := by simpa using apart
    have delivered := delivers other
    simp only [split, eraseP_append_right _ others, eraseP_cons_of_pos aimed, filter_append] at delivered ⊢
    rw [delivered, append_assoc]
    by_cases same : isFor other message = true
    · obtain rfl : actor = other := (of_decide_eq_true aimed).symm.trans (of_decide_eq_true same)
      rw [filter_eq_nil_iff.mpr others, filter_cons_of_pos same, filter_cons_of_pos same]
      rfl
    · rw [filter_cons_of_neg same, filter_cons_of_neg same]
      rfl

theorem step_invariant {call : Call} (watched : net.Watched) (delivers : net.Delivers)
    (steps : net.step task call = some after) : after.Watched ∧ after.Delivers := by
  unfold step at steps
  split at steps
  · rename_i found
    cases steps
    unfold send
    split_ifs
    · exact ⟨watched, delivers⟩
    · obtain ⟨inside, _⟩ := List.getElem?_eq_some_iff.mp found
      refine ⟨fun _ _ _ _ _ => mem_set inside _, fun actor => ?_⟩
      rw [filter_append, delivers actor, filter_append, append_assoc]
  · rename_i found
    cases steps
    exact ⟨recv_watched watched found nofun, recv_delivers delivers⟩
  · rename_i found
    cases steps
    exact ⟨watched.move found nofun (Subset.refl _) (by simp) rfl rfl, delivers⟩
  · rename_i found
    cases steps
    refine ⟨fun actor waits => ?_, delivers⟩
    rcases mem_or_eq_of_mem_set waits with told | new
    · obtain ⟨phase, _, same⟩ := mem_map.mp told
      cases phase <;> cases same
    · cases new
  · rename_i found
    cases steps
    exact ⟨recv_watched watched found nofun, recv_delivers delivers⟩
  · cases steps

theorem Reached.invariant {partitions : List (ActorId × ActorId)} (reached : Reached partitions net) :
    net.Watched ∧ net.Delivers := by
  induction reached with
  | start count => exact ⟨fun _ _ => nofun, fun _ => rfl⟩
  | step _ steps ih => exact step_invariant ih.1 ih.2 steps

/-- Where no task can step, nobody waits for a queued message; and always what an actor received is
what was queued for it, once each and in that order. -/
theorem no_lost_wakeup {partitions : List (ActorId × ActorId)} (reached : Reached partitions net) :
    ((∀ task call, net.step task call = none) → ∀ actor notified, Phase.waiting actor notified ∈ net.tasks →
      ∀ message ∈ net.queue, message.target ≠ actor) ∧
    ∀ actor, net.queued.filter (isFor actor) =
      net.received.filter (isFor actor) ++ net.queue.filter (isFor actor) := by
  obtain ⟨watched, delivers⟩ := reached.invariant
  refine ⟨fun stuck actor notified waits message queued aimed => ?_, delivers⟩
  cases notified with
  | true =>
    obtain ⟨task, found⟩ := mem_iff_getElem?.mp waits
    have idle := stuck task .finish
    simp [step, found] at idle
  | false =>
    obtain ⟨task, found⟩ := mem_iff_getElem?.mp (watched actor waits message queued aimed)
    have idle := stuck task .finish
    simp [step, found] at idle

theorem exchange_no_lost_wakeup : ∃ net, Reached [] net ∧ net.received = [⟨⟨0⟩, ⟨1⟩, 7⟩] ∧
    net.tasks = [.waiting ⟨1⟩ false, .finished] ∧ ∀ message ∈ net.queue, message.target ≠ ⟨1⟩ := by
  have reached : Reached [] { partitions := [], tasks := [.waiting ⟨1⟩ false, .finished]
                              queued := [⟨⟨0⟩, ⟨1⟩, 7⟩], received := [⟨⟨0⟩, ⟨1⟩, 7⟩] } := by
    refine .step (.step (.step (.step (.step (.step (.start 2) (rfl : step _ 0 (.recv ⟨1⟩) = _))
      (rfl : step _ 1 (.send ⟨⟨0⟩, ⟨1⟩, 7⟩) = _)) (rfl : step _ 1 .finish = _))
      (rfl : step _ 0 .finish = _)) (rfl : step _ 0 (.recv ⟨1⟩) = _)) (rfl : step _ 1 .finish = _)
  refine ⟨_, reached, rfl, rfl, (no_lost_wakeup reached).1 (fun task call => ?_) _ _ mem_cons_self⟩
  match task with
  | 0 | 1 | _ + 2 => rfl

end Network

end Ldgr.Rt
