import Ldgr.Sim.Time

/-! Timers over whole histories of a clock: none is lost, repeated, early or out of turn. -/

namespace Ldgr.Sim

open Base Format List

inductive TimeCall where
  | set (delay : UInt64) (task : Nat) (enabler : Option EntryHash)
  | advance
  | advanceTo (target : UInt64)

/-- A clock with the timers set on it and the timers it has fired, each in the order of the calls. -/
structure TimeHistory where
  time : VirtualTime
  set : List Timer
  fired : List Timer

namespace TimeCall

variable (time : VirtualTime)

def perform : TimeCall → List TimerFired × VirtualTime
  | set delay task enabler => ([], time.setWithEnabler delay task enabler)
  | advance => time.advanceWithEnablers
  | advanceTo target => time.advanceToWithEnablers target

def sets : TimeCall → List Timer
  | set delay task enabler =>
    [{ deadline := saturatingAdd time.now delay, sequence := time.sequence + 1, task, enabler }]
  | _ => []

/-- Where the call moves the clock to. -/
def tick : TimeCall → UInt64
  | set .. => time.now
  | advance => time.timers.peek.elim time.now Timer.deadline
  | advanceTo target => target

def fires : TimeCall → List Timer
  | set .. => []
  | call => time.timers.due (call.tick time)

/-- The source refuses to move to a target in the past. -/
def Ahead : TimeCall → Prop
  | advanceTo target => time.now ≤ target
  | _ => True

def follow (history : TimeHistory) (call : TimeCall) : TimeHistory where
  time := (call.perform history.time).2
  set := history.set ++ call.sets history.time
  fired := history.fired ++ call.fires history.time

def Forward (time : VirtualTime) : List TimeCall → Prop
  | [] => True
  | call :: calls => call.Ahead time ∧ Forward (call.perform time).2 calls

end TimeCall

namespace TimerQueue

variable (queue : TimerQueue) (now : UInt64)

theorem due_append_afterDue : queue.due now ++ (queue.afterDue now).timers = queue.timers :=
  takeWhile_append_dropWhile

theorem due_le {timer : Timer} (member : timer ∈ queue.due now) : timer.deadline ≤ now := by
  simpa using mem_takeWhile_imp member

theorem lt_of_afterDue {timer : Timer} (member : timer ∈ (queue.afterDue now).timers) :
    now < timer.deadline := by
  have ordered := (queue.afterDue now).ordered
  cases left : (queue.afterDue now).timers with
  | nil => simp [left] at member
  | cons first rest =>
    have late : now < first.deadline := by
      have := List.head?_dropWhile_not (fun timer : Timer => decide (timer.deadline ≤ now)) queue.timers
      simp only [afterDue] at left
      simpa [left] using this
    rw [left] at ordered member
    obtain rfl | later := mem_cons.mp member
    · exact late
    · have before := (pairwise_cons.mp ordered).1 timer later
      obtain less | same := Prod.Lex.le_iff.mp before
      · exact late.trans less
      · exact late.trans_le same.1.le

/-- No deadline comes before that of the first timer. -/
theorem le_of_peek {next timer : Timer} (first : queue.peek = some next) (member : timer ∈ queue.timers) :
    next.deadline ≤ timer.deadline := by
  obtain ⟨rest, split⟩ := List.head?_eq_some_iff.mp first
  have ordered := queue.ordered
  rw [split] at ordered member
  obtain rfl | later := mem_cons.mp member
  · exact le_rfl
  · obtain less | same := Prod.Lex.le_iff.mp ((pairwise_cons.mp ordered).1 timer later)
    · exact UInt64.le_of_lt less
    · exact (UInt64.toNat_inj.mp same.1).le

end TimerQueue

theorem VirtualTime.advanceWithEnablers_eq (time : VirtualTime) :
    time.advanceWithEnablers = time.advanceToWithEnablers (TimeCall.advance.tick time) := by
  unfold advanceWithEnablers TimeCall.tick
  cases first : time.timers.peek with
  | none =>
    obtain ⟨now, sequence, ⟨timers, ordered⟩⟩ := time
    obtain rfl := List.head?_eq_none_iff.mp first
    rfl
  | some next =>
    have spans (timers : List Timer) (later : ∀ timer ∈ timers, next.deadline ≤ timer.deadline) :
        timers.takeWhile (·.deadline = next.deadline) = timers.takeWhile (·.deadline ≤ next.deadline) ∧
        timers.dropWhile (·.deadline = next.deadline) = timers.dropWhile (·.deadline ≤ next.deadline) := by
      induction timers with
      | nil => exact ⟨rfl, rfl⟩
      | cons timer timers ih =>
        obtain ⟨here, later⟩ := forall_mem_cons.mp later
        obtain ⟨taken, left⟩ := ih later
        have same : timer.deadline = next.deadline ↔ timer.deadline ≤ next.deadline :=
          ⟨fun equal => equal.le, fun below => le_antisymm below here⟩
        simp only [takeWhile_cons, dropWhile_cons, same, taken, left, and_self]
    obtain ⟨taken, left⟩ := spans time.timers.timers fun timer => time.timers.le_of_peek first
    simp only [taken, left]
    rfl

/-! ## Histories -/

namespace TimeHistory

structure Sound (history : TimeHistory) : Prop where
  /-- Every timer set has fired once or is pending. -/
  kept : (history.fired ++ history.time.timers.timers).Perm history.set
  numbered : history.set.map Timer.sequence = List.range' 1 history.time.sequence
  pending : ∀ timer ∈ history.time.timers.timers, history.time.now ≤ timer.deadline

variable {history : TimeHistory} (sound : history.Sound)

include sound

theorem Sound.advanceTo (target : UInt64) : Sound
    { time := (history.time.advanceToWithEnablers target).2, set := history.set ++ []
      fired := history.fired ++ history.time.timers.due target } where
  kept := by
    rw [append_assoc, append_nil]
    exact (history.time.timers.due_append_afterDue target).symm ▸ sound.kept
  numbered := by
    rw [append_nil]
    exact sound.numbered
  pending timer member := (history.time.timers.lt_of_afterDue target member).le

theorem Sound.follow (call : TimeCall) : (call.follow history).Sound := by
  cases call with
  | set delay task enabler =>
    let timer : Timer :=
      { deadline := saturatingAdd history.time.now delay, sequence := history.time.sequence + 1, task
        enabler }
    have pushed : (history.time.timers.push timer).timers.Perm (timer :: history.time.timers.timers) :=
      perm_orderedInsert _ _ _
    constructor
    · change (history.fired ++ [] ++ (history.time.timers.push timer).timers).Perm (history.set ++ [timer])
      rw [append_nil]
      exact (pushed.append_left _).trans (perm_middle.trans
        ((sound.kept.cons timer).trans (perm_append_singleton _ _).symm))
    · change (history.set ++ [timer]).map Timer.sequence = List.range' 1 (history.time.sequence + 1)
      rw [map_append, sound.numbered, List.range'_1_concat, Nat.add_comm 1]
      rfl
    · intro other member
      cases mem_cons.mp (pushed.mem_iff.mp member) with
      | inl new =>
        have bound := history.time.now.toNat_lt
        change history.time.now ≤ _
        rw [new, UInt64.le_iff_toNat_le, toNat_saturatingAdd]
        omega
      | inr old => exact sound.pending other old
  | advance =>
    unfold TimeCall.follow TimeCall.perform
    rw [VirtualTime.advanceWithEnablers_eq]
    exact sound.advanceTo _
  | advanceTo target => exact sound.advanceTo target

theorem Sound.now_le {call : TimeCall} (ahead : call.Ahead history.time) :
    history.time.now ≤ call.tick history.time := by
  cases call with
  | set => exact le_rfl
  | advance =>
    unfold TimeCall.tick
    cases first : history.time.timers.peek with
    | none => exact le_rfl
    | some next => exact sound.pending next (mem_of_head? first)
  | advanceTo target => exact ahead

theorem Sound.pairwise_fires (call : TimeCall) : (call.fires history.time).Pairwise fun left right =>
    left.deadline < right.deadline ∨ left.deadline = right.deadline ∧ left.sequence < right.sequence := by
  have distinct : (history.time.timers.timers.map Timer.sequence).Nodup := by
    have all := (sound.kept.map Timer.sequence).nodup_iff.mpr (sound.numbered ▸ nodup_range')
    rw [map_append] at all
    exact all.of_append_right
  have strict : history.time.timers.timers.Pairwise fun left right => left.deadline < right.deadline ∨
      left.deadline = right.deadline ∧ left.sequence < right.sequence := by
    refine history.time.timers.ordered.imp₂ (fun left right before differ => ?_) (pairwise_map.mp distinct)
    cases Prod.Lex.le_iff.mp before with
    | inl less => exact .inl less
    | inr same => exact .inr ⟨UInt64.toNat_inj.mp same.1, lt_of_le_of_ne same.2 differ⟩
  cases call with
  | set => exact .nil
  | advance | advanceTo target => exact strict.sublist (takeWhile_sublist _)

end TimeHistory

theorem TimeCall.perform_eq (time : VirtualTime) (call : TimeCall) :
    (call.perform time).1 = (call.fires time).map Timer.fired ∧ (call.perform time).2.now = call.tick time := by
  cases call with
  | set => exact ⟨rfl, rfl⟩
  | advance =>
    rw [perform, VirtualTime.advanceWithEnablers_eq]
    exact ⟨rfl, rfl⟩
  | advanceTo => exact ⟨rfl, rfl⟩

def TimeHistory.run (now : UInt64) (calls : List TimeCall) : TimeHistory :=
  calls.foldl TimeCall.follow { time := .fromTicks now, set := [], fired := [] }

theorem TimeHistory.sound_foldl {history : TimeHistory} (sound : history.Sound) (calls : List TimeCall) :
    (calls.foldl TimeCall.follow history).Sound := by
  induction calls generalizing history with
  | nil => exact sound
  | cons call calls ih => exact ih (sound.follow call)

theorem TimeCall.ahead_of_forward {history : TimeHistory} {done : List TimeCall} {call : TimeCall}
    (forward : Forward history.time (done ++ [call])) :
    call.Ahead (done.foldl follow history).time := by
  induction done generalizing history with
  | nil => exact forward.1
  | cons first done ih => exact ih forward.2

/-- An advance fires one timer at least, if any is pending. -/
theorem TimeHistory.drains {count : Nat} {history : TimeHistory}
    (few : history.time.timers.timers.length ≤ count) :
    let after := (List.replicate count .advance).foldl TimeCall.follow history
    after.set = history.set ∧ after.time.timers.timers = [] := by
  induction count generalizing history with
  | zero => exact ⟨rfl, length_eq_zero_iff.mp (Nat.le_zero.mp few)⟩
  | succ count ih =>
    have set : (TimeCall.advance.follow history).set = history.set := append_nil _
    have timers : (TimeCall.advance.follow history).time.timers.timers =
        (history.time.timers.afterDue (TimeCall.advance.tick history.time)).timers :=
      congrArg (·.2.timers.timers) history.time.advanceWithEnablers_eq
    rw [replicate_succ, foldl_cons, ← set]
    refine ih ?_
    rw [timers]
    change (history.time.timers.timers.dropWhile (·.deadline ≤
      history.time.timers.timers.head?.elim history.time.now Timer.deadline)).length ≤ count
    generalize history.time.timers.timers = pending at few ⊢
    cases pending with
    | nil => exact Nat.zero_le count
    | cons next rest =>
      have dropped : (next :: rest).dropWhile (·.deadline ≤ next.deadline) =
          rest.dropWhile (·.deadline ≤ next.deadline) := by simp
      exact dropped ▸ (dropWhile_sublist _).length_le.trans (Nat.le_of_succ_le_succ few)

/-- Over every history of a clock: it never moves back; a timer set has fired once or is pending, and
fires if the clock keeps advancing; a call fires no timer early, and its timers by deadline and then in
the order they were set; nothing stays pending at or before a tick moved to. -/
theorem timers_fire_in_order (now : UInt64) (done : List TimeCall) (call : TimeCall)
    (forward : TimeCall.Forward (.fromTicks now) (done ++ [call])) :
    let before := TimeHistory.run now done
    let after := TimeHistory.run now (done ++ [call])
    before.time.now ≤ after.time.now ∧
    (after.set.map Timer.sequence = List.range' 1 after.set.length ∧
      (after.fired ++ after.time.timers.timers).Perm after.set ∧
      ∃ count, (TimeHistory.run now (done ++ [call] ++ List.replicate count .advance)).fired.Perm after.set) ∧
    (∃ timers, call.perform before.time = (timers.map Timer.fired, after.time) ∧
      after.fired = before.fired ++ timers ∧
      (∀ timer ∈ timers, timer.deadline ≤ after.time.now) ∧
      timers.Pairwise fun left right => left.deadline < right.deadline ∨
        left.deadline = right.deadline ∧ left.sequence < right.sequence) ∧
    ∀ target, call = .advanceTo target → ∀ timer ∈ after.time.timers.timers, target < timer.deadline := by
  intro before after
  have start : TimeHistory.Sound { time := .fromTicks now, set := [], fired := [] } :=
    ⟨.nil, rfl, nofun⟩
  have sound : before.Sound := TimeHistory.sound_foldl start done
  have step : after = call.follow before := foldl_concat ..
  have soundAfter : after.Sound := step ▸ sound.follow call
  obtain ⟨answer, tick⟩ := TimeCall.perform_eq before.time call
  have moved : after.time = (call.perform before.time).2 := congrArg TimeHistory.time step
  rw [← moved] at tick
  refine ⟨?_, ⟨?_, soundAfter.kept, after.time.timers.timers.length, ?_⟩, ⟨call.fires before.time, ?_, ?_,
    fun timer member => ?_, sound.pairwise_fires call⟩, ?_⟩
  · rw [tick]
    exact sound.now_le (TimeCall.ahead_of_forward forward)
  · have size := congrArg List.length soundAfter.numbered
    rw [length_map, length_range'] at size
    rw [size, soundAfter.numbered]
  · obtain ⟨set, timers⟩ := TimeHistory.drains (le_refl after.time.timers.timers.length)
    have kept := (TimeHistory.sound_foldl soundAfter
      (List.replicate after.time.timers.timers.length .advance)).kept
    rw [timers, set, append_nil] at kept
    rwa [TimeHistory.run, foldl_append]
  · exact Prod.ext answer moved.symm
  · exact congrArg TimeHistory.fired step
  · rw [tick]
    cases call with
    | set => cases member
    | advance | advanceTo target => exact before.time.timers.due_le _ member
  · rintro target rfl timer member
    rw [moved] at member
    exact before.time.timers.lt_of_afterDue target member

/-- A timer that is set later and due earlier fires first. -/
theorem laterTimer_first :
    let calls : List TimeCall := [.set 5 0 none, .set 3 1 none]
    (TimeHistory.run 0 calls).time.now ≤ (TimeHistory.run 0 (calls ++ [.advanceTo 4])).time.now ∧
      (TimeHistory.run 0 (calls ++ [.advanceTo 4])).fired.map Timer.task = [1] := by
  intro calls
  exact ⟨(timers_fire_in_order 0 calls (.advanceTo 4) ⟨trivial, trivial, show (0 : UInt64) ≤ 4 by decide, trivial⟩).1,
    by decide +kernel⟩

end Ldgr.Sim
