import Ldgr.Explorer.HittingSet
import Ldgr.Sim.Replay

/-! From a hypothesis to the faults that are injected for its events. -/

namespace Ldgr.Explorer

open Base Format Sim List

/-! ## Schedules -/

/-- The first send with the id. -/
def senderOf (journal : Journal) (messageId : MessageId) : Option EntryHash :=
  journal.entries.findSome? fun entry =>
    match entry.data.kind, entry.data.payload with
    | .send, .send frame => if frame.messageId = messageId then some entry.id else none
    | _, _ => none

def duplicateSenders (journal : Journal) : List EntryHash :=
  journal.entries.filterMap fun entry =>
    match entry.data.kind, entry.data.payload with
    | .fault, .fault (.duplicateMessage messageId _) => senderOf journal messageId
    | _, _ => none

def parentOfKind (kind : EntryKind) (journal : Journal) (parents : List EntryHash) : Option EntryHash :=
  parents.find? fun parent => (journal.get parent).any (·.data.kind = kind)

def sendParent : Journal → List EntryHash → Option EntryHash :=
  parentOfKind .send

def fsWriteParent : Journal → List EntryHash → Option EntryHash :=
  parentOfKind .fsWrite

/-- A send with a journaled duplicate is only duplicated again. -/
def sendFaults (journal : Journal) (send : EntryHash) (link : List SimFault) : List SimFault :=
  if send ∈ duplicateSenders journal then [.duplicate send] else .drop send :: .delay send 1 :: link

def writeFaults (write : EntryHash) : List SimFault :=
  [.corrupt write 1, .crashState write 0]

/-- The faults of one event, in the order in which they are pushed. -/
def injections (journal : Journal) (event : EntryHash) (entry : Entry) : List SimFault :=
  match entry.data.kind with
  | .send => sendFaults journal event <|
    match entry.data.payload with
    | .send frame => [.partition entry.data.actor frame.target]
    | _ => []
  | .recv =>
    match sendParent journal entry.data.parents with
    | none => []
    | some parent => sendFaults journal parent <|
      match journal.get parent with
      | some sendEntry => [.partition sendEntry.data.actor entry.data.actor]
      | none => []
  | .fsWrite => writeFaults event
  | .fsRead =>
    match fsWriteParent journal entry.data.parents with
    | none => []
    | some parent => writeFaults parent
  | .timerFire => [.delay event 1]
  | _ => []

def injectionsOf (journal : Journal) (event : EntryHash) : List SimFault :=
  match journal.get event with
  | none => []
  | some entry => injections journal event entry

def injectionKey (blake3 : Bytes → EntryHash) : SimFault → UInt8 × EntryHash
  | .drop id => (0, id)
  | .delay send _ => (1, send)
  | .crash id => (2, id)
  | .corrupt write _ => (3, write)
  | .crashState write _ => (4, write)
  | .duplicate send => (6, send)
  | .partition source target => (5, blake3 (leBytes 4 source.id.toNat ++ leBytes 4 target.id.toNat))

/-- The classes seen are those of the faults in the schedule. -/
def push (blake3 : Bytes → EntryHash) (schedule : List SimFault) (injection : SimFault) : List SimFault :=
  if injectionKey blake3 injection ∈ schedule.map (injectionKey blake3) then schedule
  else schedule ++ [injection]

def hypothesisToSchedule (blake3 : Bytes → EntryHash) (hypothesis : FaultHypothesis) (journal : Journal) :
    List SimFault :=
  (hypothesis.events.eraseDups.flatMap (injectionsOf journal)).foldl (push blake3) []

/-! ## One fault for each event -/

variable {blake3 : Bytes → EntryHash} {journal : Journal} {event : EntryHash}

theorem mem_of_mem_foldl_push {faults schedule : List SimFault} {fault : SimFault}
    (member : fault ∈ faults.foldl (push blake3) schedule) : fault ∈ schedule ∨ fault ∈ faults := by
  induction faults generalizing schedule with
  | nil => exact .inl member
  | cons first faults ih =>
    have found := ih member
    unfold push at found
    split_ifs at found
    · exact found.imp_right (.tail _)
    · simp only [mem_append, mem_cons] at found ⊢
      tauto

theorem key_mem_foldl_push {faults schedule : List SimFault} {key : UInt8 × EntryHash}
    (member : key ∈ schedule.map (injectionKey blake3) ∨ key ∈ faults.map (injectionKey blake3)) :
    key ∈ (faults.foldl (push blake3) schedule).map (injectionKey blake3) := by
  induction faults generalizing schedule with
  | nil => exact member.resolve_right not_mem_nil
  | cons first faults ih =>
    refine ih ?_
    unfold push
    split_ifs with seen
    · rw [map_cons, mem_cons] at member
      obtain earlier | rfl | later := member
      · exact .inl earlier
      · exact .inl seen
      · exact .inr later
    · simp only [map_append, mem_append, map_cons, mem_cons, map_nil] at member ⊢
      tauto

/-- The parameters every injected fault has. -/
def usual : SimFault → Bool
  | .delay _ ticks => ticks = 1
  | .corrupt _ xorMask => xorMask = 1
  | .crashState _ state => state = 0
  | _ => true

theorem eq_of_injectionKey {first second : SimFault} (usualFirst : usual first) (usualSecond : usual second)
    (aimed : (injectionKey blake3 first).1 ≠ 5)
    (same : injectionKey blake3 second = injectionKey blake3 first) : second = first := by
  cases first <;> cases second <;> simp_all [injectionKey, usual]

/-- The faults of an event are usual ones, and the first of them is no partition. -/
def Aimed (faults : List SimFault) : Prop :=
  (∀ fault ∈ faults, usual fault) ∧ ∀ blake3, ∀ fault ∈ faults.head?, (injectionKey blake3 fault).1 ≠ 5

theorem sendFaults_aimed (send : EntryHash) {link : List SimFault} (usualLink : ∀ fault ∈ link, usual fault) :
    Aimed (sendFaults journal send link) := by
  unfold sendFaults
  split_ifs
  · simp [Aimed, usual, injectionKey]
  · simp only [Aimed, forall_mem_cons, head?_cons, Option.mem_some_iff, forall_eq']
    exact ⟨⟨rfl, rfl, usualLink⟩, fun _ => nofun⟩

theorem injectionsOf_aimed : Aimed (injectionsOf journal event) := by
  have none : Aimed [] := by simp [Aimed]
  have write (write : EntryHash) : Aimed (writeFaults write) := by simp [Aimed, writeFaults, usual, injectionKey]
  unfold injectionsOf injections
  split
  · exact none
  · split
    · refine sendFaults_aimed _ ?_
      split <;> simp [usual]
    · split
      · exact none
      · refine sendFaults_aimed _ ?_
        split <;> simp [usual]
    · exact write event
    · split
      · exact none
      · exact write _
    · simp [Aimed, usual, injectionKey]
    · exact none

/-- The entry is no timer that is set, and if it is received or read, what it observes is a parent. -/
structure Injectable (journal : Journal) (entry : Entry) : Prop where
  kind : entry.data.kind ≠ .timerSet
  received : entry.data.kind = .recv → (sendParent journal entry.data.parents).isSome
  read : entry.data.kind = .fsRead → (fsWriteParent journal entry.data.parents).isSome

theorem injections_ne_nil {entry : Entry} (faultable : isFaultable entry.data.kind) :
    injections journal event entry ≠ [] ↔ Injectable journal entry := by
  have send (send : EntryHash) (link : List SimFault) : sendFaults journal send link ≠ [] := by
    unfold sendFaults
    split_ifs <;> exact cons_ne_nil _ _
  unfold injections
  split
  case h_1 kind => exact iff_of_true (send _ _) (by constructor <;> simp [kind])
  case h_2 kind =>
    cases parent : sendParent journal entry.data.parents with
    | none => exact iff_of_false (· rfl) fun injectable => by simpa [parent] using injectable.received kind
    | some found => exact iff_of_true (send _ _) (by constructor <;> simp [kind, parent])
  case h_4 kind =>
    cases parent : fsWriteParent journal entry.data.parents with
    | none => exact iff_of_false (· rfl) fun injectable => by simpa [parent] using injectable.read kind
    | some found => exact iff_of_true (cons_ne_nil _ _) (by constructor <;> simp [kind, parent])
  case h_3 kind | h_5 kind => exact iff_of_true (cons_ne_nil _ _) (by constructor <;> simp [kind])
  case h_6 others =>
    refine iff_of_false (· rfl) fun injectable => ?_
    simp_all [isFaultable, injectable.kind]

/-- Every event of a hypothesis is given a fault exactly if no event sets a timer and those that are
received or read have the send or the write they observe among their parents. -/
theorem hypothesisToSchedule_injects_iff {hypothesis : FaultHypothesis}
    (faultable : ∀ event ∈ hypothesis.events, ∃ entry, journal.get event = some entry ∧
      isFaultable entry.data.kind) :
    (∀ event ∈ hypothesis.events, ∃ fault ∈ hypothesisToSchedule blake3 hypothesis journal,
      fault ∈ injectionsOf journal event) ↔
      ∀ event ∈ hypothesis.events, ∀ entry, journal.get event = some entry → Injectable journal entry := by
  refine forall₂_congr fun event member => ?_
  obtain ⟨entry, found, faultable⟩ := faultable event member
  have listed : injectionsOf journal event = injections journal event entry := by rw [injectionsOf, found]
  have given : (∃ fault ∈ hypothesisToSchedule blake3 hypothesis journal, fault ∈ injectionsOf journal event) ↔
      injectionsOf journal event ≠ [] := by
    refine ⟨fun ⟨fault, _, mine⟩ => ne_nil_of_mem mine, fun some => ?_⟩
    obtain ⟨first, others, form⟩ := exists_cons_of_ne_nil some
    have mine : first ∈ injectionsOf journal event := form ▸ mem_cons_self
    have aimed : Aimed (injectionsOf journal event) := injectionsOf_aimed
    have pushed := mem_flatMap.mpr ⟨event, mem_eraseDups.mpr member, mine⟩
    obtain ⟨same, scheduled, key⟩ := mem_map.mp (@key_mem_foldl_push blake3 _ [] _
      (.inr (mem_map_of_mem pushed)))
    obtain ⟨_, _, theirs⟩ := mem_flatMap.mp ((mem_of_mem_foldl_push scheduled).resolve_left not_mem_nil)
    cases eq_of_injectionKey (aimed.1 first mine) (injectionsOf_aimed.1 same theirs)
      (aimed.2 blake3 first (by rw [form]; rfl)) key
    exact ⟨_, scheduled, mine⟩
  rw [given, listed, injections_ne_nil faultable]
  simp [found]

/-- A run in which a task sleeps and then sends. -/
def pingRun : Except RuntimeError RunResult :=
  (Simulation.new (.default ⟨false⟩) Simulation.pingPrograms).run Sim.plainHost

theorem pingRun_kinds : ∃ result, pingRun = .ok result ∧ ∀ kind ∈ [EntryKind.send, .timerSet],
    ∃ event, (result.journal.get event).map (·.data.kind) = some kind := by
  obtain ⟨result, ran, found⟩ := okWith_eq_true.mp (show okWith (fun result =>
      [EntryKind.send, .timerSet].all fun kind => result.journal.ids.any fun event =>
        (result.journal.get event).map (·.data.kind) = some kind)
      pingRun = true by decide +kernel)
  refine ⟨result, ran, fun kind member => ?_⟩
  obtain ⟨event, _, same⟩ := any_eq_true.mp (all_eq_true.mp found kind member)
  exact ⟨event, of_decide_eq_true same⟩

theorem pingRun_send_injected : ∃ result, pingRun = .ok result ∧ ∃ event,
    ∃ fault ∈ hypothesisToSchedule checksum ⟨[event], 2, ""⟩ result.journal,
      fault ∈ injectionsOf result.journal event := by
  obtain ⟨result, ran, found⟩ := pingRun_kinds
  obtain ⟨event, kind⟩ := found .send (by simp)
  obtain ⟨entry, found, kind⟩ := Option.map_eq_some_iff.mp kind
  refine ⟨result, ran, event, (hypothesisToSchedule_injects_iff (forall_mem_singleton.mpr
    ⟨entry, found, by rw [kind]; rfl⟩)).mpr (forall_mem_singleton.mpr fun other same => ?_) event (by simp)⟩
  cases found.symm.trans same
  constructor <;> simp [kind]

/-- The timer the task sets is an event the solvers may cut, but no fault is injected for it. -/
theorem pingRun_timer_ignored : ∃ result, pingRun = .ok result ∧
    ∃ event entry, result.journal.get event = some entry ∧ isFaultable entry.data.kind ∧
      hypothesisToSchedule checksum ⟨[event], 3, ""⟩ result.journal = [] := by
  obtain ⟨result, ran, found⟩ := pingRun_kinds
  obtain ⟨event, kind⟩ := found .timerSet (by simp)
  obtain ⟨entry, found, kind⟩ := Option.map_eq_some_iff.mp kind
  refine ⟨result, ran, event, entry, found, by rw [kind]; rfl, ?_⟩
  simp [hypothesisToSchedule, injectionsOf, found, injections, kind, eraseDups_cons]

end Ldgr.Explorer
