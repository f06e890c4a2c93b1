import Ldgr.Worker.Queue

/-! Every pushed task is in one place, its attempts are the expiries and failures charged to it, and
its budget bounds how often it is handed out. -/

namespace Ldgr.Worker

open Base Format Sim List InMemoryQueue

variable {features : Features}

/-! ## Places -/

inductive Place where
  | waiting
  | leased
  | failed
  | cancelled
  | done
  | taken
  deriving DecidableEq

abbrev Slot (features : Features) := Place × Task features

/-- How often a task may have been handed out in a place, by the attempts charged to it and its
budget. A task that may be handed out again has an attempt left for it. -/
def Place.Budget (handouts charges budget : Nat) : Place → Prop
  | waiting => handouts ≤ charges ∧ (charges = 0 ∨ charges < budget)
  | leased | taken => handouts ≤ charges + 1 ∧ (charges = 0 ∨ charges < budget)
  | failed | cancelled | done => handouts ≤ max 1 budget

theorem Place.Budget.handouts_le {place : Place} {handouts charges budget : Nat}
    (within : place.Budget handouts charges budget) : handouts ≤ max 1 budget := by
  cases place <;> simp only [Place.Budget] at within <;> omega

/-! ## Moves -/

/-- How a task goes from one place to another, with the ids handed out and charged by that. -/
inductive Relocation : Slot features → Slot features → List String → List String → Prop where
  | stay (slot : Slot features) : Relocation slot slot [] []
  | handOut (task : Task features) (status : TaskStatus) :
      Relocation (.waiting, task) (.leased, { task with status }) [task.id] []
  | charge {place : Place} {task : Task features} {moved : Slot features}
      (held : place = .leased ∨ place = .taken) (sameId : moved.2.id = task.id)
      (sameBudget : moved.2.maxAttempts = task.maxAttempts)
      (attempts : moved.2.attempts = task.attempts + 1)
      (routed : moved.1 = if task.maxAttempts ≤ task.attempts + 1 then .failed else .waiting) :
      Relocation (place, task) moved [] [task.id]
  | putAside {place next : Place} (task : Task features) (status : TaskStatus)
      (held : place = .waiting ∨ place = .leased)
      (aside : next = .taken ∨ next = .cancelled ∨ next = .done) :
      Relocation (place, task) (next, { task with status }) [] []

/-- The places a task does not leave. -/
def Place.Terminal (place : Place) : Prop :=
  place = failed ∨ place = cancelled ∨ place = done

namespace Relocation

variable {slot moved : Slot features} {handouts charges : List String}

theorem of_terminal (relocation : Relocation slot moved handouts charges)
    (terminal : slot.1.Terminal) : moved = slot ∧ handouts = [] := by
  cases relocation with
  | stay => exact ⟨rfl, rfl⟩
  | handOut => simp [Place.Terminal] at terminal
  | charge held | putAside _ _ held => obtain rfl | rfl := held <;> simp [Place.Terminal] at terminal

theorem handouts_eq (relocation : Relocation slot moved handouts charges) :
    ∀ id ∈ handouts, id = slot.2.id := by
  cases relocation <;> simp

end Relocation

/-! ## Accounts -/

/-- Where every pushed task is, the ids of the tasks handed out and of the attempts charged, in order. -/
structure Accounts (pushed : List (Task features)) (handed charged : List String)
    (slots : List (Slot features)) : Prop where
  distinct : (pushed.map Task.id).Nodup
  located : (slots.map fun slot => slot.2.id).Perm (pushed.map Task.id)
  known : ∀ id ∈ handed ++ charged, id ∈ pushed.map Task.id
  original : ∀ slot ∈ slots, ∀ task ∈ pushed, task.id = slot.2.id → slot.2.maxAttempts = task.maxAttempts
  charges : ∀ slot ∈ slots, slot.2.attempts.toNat = charged.count slot.2.id
  budget : ∀ slot ∈ slots,
    slot.1.Budget (handed.count slot.2.id) (charged.count slot.2.id) slot.2.maxAttempts.toNat

namespace Accounts

variable {pushed : List (Task features)} {handed charged : List String} {slots : List (Slot features)}

theorem perm (accounts : Accounts pushed handed charged slots) {others : List (Slot features)}
    (same : others.Perm slots) : Accounts pushed handed charged others where
  distinct := accounts.distinct
  located := (same.map _).trans accounts.located
  known := accounts.known
  original slot member := accounts.original slot (same.mem_iff.mp member)
  charges slot member := accounts.charges slot (same.mem_iff.mp member)
  budget slot member := accounts.budget slot (same.mem_iff.mp member)

theorem slot_ids_nodup (accounts : Accounts pushed handed charged slots) :
    (slots.map fun slot => slot.2.id).Nodup :=
  accounts.located.nodup_iff.mpr accounts.distinct

theorem add (accounts : Accounts pushed handed charged slots) {task : Task features}
    (fresh : task.id ∉ pushed.map Task.id) (unused : task.attempts = 0) (queued : Task features)
    (sameId : queued.id = task.id) (sameAttempts : queued.attempts = task.attempts)
    (sameBudget : queued.maxAttempts = task.maxAttempts) :
    Accounts (pushed ++ [task]) handed charged ((.waiting, queued) :: slots) where
  distinct := by
    rw [map_append]
    exact nodup_append'.mpr ⟨accounts.distinct, nodup_singleton _, by simpa using fresh⟩
  located := by
    rw [map_append, map_cons, sameId]
    exact (accounts.located.cons _).trans (perm_append_singleton _ _).symm
  known id member := by
    rw [map_append]
    exact mem_append_left _ (accounts.known id member)
  original := by
    refine forall_mem_cons.mpr ⟨forall_mem_append.mpr ⟨fun other member same => ?_,
      forall_mem_singleton.mpr fun _ => sameBudget⟩,
      fun slot member => forall_mem_append.mpr ⟨accounts.original slot member,
        forall_mem_singleton.mpr fun same => ?_⟩⟩
    · exact absurd (mem_map.mpr ⟨other, member, same.trans sameId⟩) fresh
    · exact absurd (same ▸ accounts.located.mem_iff.mp (mem_map.mpr ⟨slot, member, rfl⟩)) fresh
  charges := by
    refine forall_mem_cons.mpr ⟨?_, accounts.charges⟩
    have uncharged : task.id ∉ charged := fun member =>
      fresh (accounts.known _ (mem_append_right _ member))
    rw [sameId, sameAttempts, unused, count_eq_zero.mpr uncharged]
    rfl
  budget := by
    refine forall_mem_cons.mpr ⟨?_, accounts.budget⟩
    have untouched (list : List String) (part : list ⊆ handed ++ charged) : list.count task.id = 0 :=
      count_eq_zero.mpr fun member => fresh (accounts.known _ (part member))
    rw [sameId, untouched handed (subset_append_left ..), untouched charged (subset_append_right ..)]
    exact ⟨Nat.le_refl 0, .inl rfl⟩

theorem move {slot : Slot features} (accounts : Accounts pushed handed charged (slot :: slots))
    (moved : Slot features) (sameId : moved.2.id = slot.2.id) (sameBudget : moved.2.maxAttempts = slot.2.maxAttempts)
    {handed' charged' : List String}
    (handouts : ∀ id ≠ slot.2.id, handed'.count id = handed.count id)
    (charges : ∀ id ≠ slot.2.id, charged'.count id = charged.count id)
    (attempts : moved.2.attempts.toNat = charged'.count moved.2.id)
    (within : moved.1.Budget (handed'.count slot.2.id) (charged'.count slot.2.id) slot.2.maxAttempts.toNat) :
    Accounts pushed handed' charged' (moved :: slots) := by
  have here : slot.2.id ∈ pushed.map Task.id := accounts.located.mem_iff.mp mem_cons_self
  have apart : ∀ other ∈ slots, other.2.id ≠ slot.2.id := fun other member same =>
    (nodup_cons.mp accounts.slot_ids_nodup).1 (mem_map.mpr ⟨other, member, same⟩)
  refine
    { distinct := accounts.distinct
      located := by
        rw [map_cons, sameId]
        exact accounts.located
      known := fun id member => ?_
      original := forall_mem_cons.mpr ⟨fun task listed same => ?_, fun other member =>
        accounts.original other (mem_cons_of_mem _ member)⟩
      charges := forall_mem_cons.mpr ⟨attempts, fun other member => ?_⟩
      budget := forall_mem_cons.mpr ⟨by rwa [sameId, sameBudget], fun other member => ?_⟩ }
  · by_cases same : id = slot.2.id
    · exact same ▸ here
    · refine accounts.known id (mem_append.mpr ((mem_append.mp member).imp ?_ ?_))
      · intro counted
        rw [← count_pos_iff, ← handouts id same]
        exact count_pos_iff.mpr counted
      · intro counted
        rw [← count_pos_iff, ← charges id same]
        exact count_pos_iff.mpr counted
  · rw [sameBudget]
    exact accounts.original slot mem_cons_self task listed (same.trans sameId)
  · rw [charges _ (apart other member)]
    exact accounts.charges other (mem_cons_of_mem _ member)
  · rw [charges _ (apart other member), handouts _ (apart other member)]
    exact accounts.budget other (mem_cons_of_mem _ member)

theorem count_append_of_ne {list : List String} {id other : String} (apart : other ≠ id) :
    (list ++ [id]).count other = list.count other := by
  rw [count_append, count_singleton, if_neg (by simpa using apart.symm), Nat.add_zero]

theorem count_append_self (list : List String) (id : String) : (list ++ [id]).count id = list.count id + 1 := by
  rw [count_append, count_singleton_self]

theorem charge {place : Place} {task : Task features}
    (accounts : Accounts pushed handed charged ((place, task) :: slots))
    (held : place = .leased ∨ place = .taken) {moved : Slot features} (sameId : moved.2.id = task.id)
    (sameBudget : moved.2.maxAttempts = task.maxAttempts)
    (attempts : moved.2.attempts = task.attempts + 1)
    (routed : moved.1 = if task.maxAttempts ≤ task.attempts + 1 then .failed else .waiting) :
    Accounts pushed handed (charged ++ [task.id]) (moved :: slots) := by
  have charges : task.attempts.toNat = charged.count task.id :=
    accounts.charges _ mem_cons_self
  have budget := accounts.budget _ mem_cons_self
  obtain ⟨handouts, left⟩ : handed.count task.id ≤ charged.count task.id + 1 ∧
      (charged.count task.id = 0 ∨ charged.count task.id < task.maxAttempts.toNat) := by
    obtain rfl | rfl := held <;> exact budget
  have bound := task.maxAttempts.toNat_lt
  -- A task that can be charged has an attempt left, so its counter does not wrap.
  have next : (task.attempts + 1).toNat = charged.count task.id + 1 := by
    rw [UInt32.toNat_add, charges]
    exact Nat.mod_eq_of_lt (by show _ + 1 < 2 ^ 32; omega)
  refine accounts.move moved sameId sameBudget (fun _ _ => rfl) (fun _ => count_append_of_ne) ?_ ?_
  · rw [attempts, next, sameId, count_append_self]
  · rw [routed, count_append_self]
    dsimp only
    split_ifs with exhausted
    · show handed.count task.id ≤ max 1 task.maxAttempts.toNat
      omega
    · have within : charged.count task.id + 1 < task.maxAttempts.toNat := by
        rw [← next]
        exact Nat.lt_of_not_le exhausted
      exact ⟨handouts, .inr within⟩

theorem relocate {slot moved : Slot features} {handouts charges : List String}
    (accounts : Accounts pushed handed charged (slot :: slots))
    (relocation : Relocation slot moved handouts charges) :
    Accounts pushed (handed ++ handouts) (charged ++ charges) (moved :: slots) := by
  have attempts := accounts.charges _ mem_cons_self
  have budget := accounts.budget _ mem_cons_self
  cases relocation with
  | stay =>
    rwa [append_nil, append_nil]
  | handOut task status =>
    rw [append_nil]
    refine accounts.move (.leased, { task with status }) rfl rfl (fun _ => count_append_of_ne)
      (fun _ _ => rfl) attempts ?_
    rw [count_append_self]
    exact ⟨Nat.succ_le_succ budget.1, budget.2⟩
  | charge held sameId sameBudget counted routed =>
    rw [append_nil]
    exact accounts.charge held sameId sameBudget counted routed
  | @putAside place next task status held aside =>
    rw [append_nil, append_nil]
    refine accounts.move (next, { task with status }) rfl rfl (fun _ _ => rfl) (fun _ _ => rfl) attempts ?_
    obtain rfl | rfl := held <;> obtain rfl | rfl | rfl := aside <;>
      simp only [Place.Budget] at budget ⊢ <;> omega

end Accounts

/-! ## Slots of a queue -/

def leasedTasks (leased : AList fun _ : String => Task features × Nat) : List (Task features) :=
  leased.entries.map fun entry => entry.2.1

namespace InMemoryQueue

variable {queue : InMemoryQueue features}

def slots (queue : InMemoryQueue features) : List (Slot features) :=
  queue.queue.map (Place.waiting, ·) ++ (leasedTasks queue.leased).map (Place.leased, ·) ++
    queue.failed.map (Place.failed, ·) ++ queue.cancelled.map (Place.cancelled, ·) ++
    queue.done.map (Place.done, ·)

/-- Leases are filed under the ids of their tasks. -/
def Keyed (queue : InMemoryQueue features) : Prop :=
  ∀ entry ∈ queue.leased.entries, entry.2.1.id = entry.1

variable {leased : AList fun _ : String => Task features × Nat} {taskId : String}
  {task : Task features} {deadline : Nat}

theorem leasedTasks_erase (found : leased.lookup taskId = some (task, deadline)) :
    (leasedTasks leased).Perm (task :: leasedTasks (leased.erase taskId)) := by
  have present : taskId ∈ leased.entries.keys :=
    AList.mem_keys.mp (AList.lookup_isSome.mp (by rw [found]; rfl))
  obtain ⟨value, front, rest, absent, split, erased⟩ := exists_of_kerase present
  have same : value = (task, deadline) := by
    have held : leased.lookup taskId = some value :=
      AList.mem_lookup_iff.mpr (by rw [split]; simp)
    exact Option.some.inj (held.symm.trans found)
  subst same
  have entries : (leased.erase taskId).entries = front ++ rest := erased
  rw [leasedTasks, leasedTasks, entries, split, map_append, map_append, map_cons]
  exact perm_middle

theorem leasedTasks_insert (absent : taskId ∉ leased.keys) (task : Task features) (deadline : Nat) :
    leasedTasks (leased.insert taskId (task, deadline)) = task :: leasedTasks leased := by
  rw [leasedTasks, AList.entries_insert_of_notMem absent]
  rfl

section Added

variable (queue : InMemoryQueue features) (task : Task features)

theorem slots_waiting :
    { queue with queue := queue.queue ++ [task] }.slots.Perm ((.waiting, task) :: queue.slots) := by
  simp only [slots, map_append, map_singleton]
  exact (((perm_append_singleton _ _).append_right _).append_right _).append_right _
    |>.append_right _

theorem slots_failed :
    { queue with failed := queue.failed ++ [task] }.slots.Perm ((.failed, task) :: queue.slots) := by
  simp only [slots, map_append, map_singleton, ← append_assoc]
  exact ((perm_append_singleton _ _).append_right _).append_right _

theorem slots_cancelled :
    { queue with cancelled := queue.cancelled ++ [task] }.slots.Perm ((.cancelled, task) :: queue.slots) := by
  simp only [slots, map_append, map_singleton, ← append_assoc]
  exact (perm_append_singleton _ _).append_right _

theorem slots_done :
    { queue with done := queue.done ++ [task] }.slots.Perm ((.done, task) :: queue.slots) := by
  simp only [slots, map_append, map_singleton, ← append_assoc]
  exact perm_append_singleton _ _

end Added

theorem slots_leased (same : (leasedTasks queue.leased).Perm (task :: leasedTasks leased)) :
    queue.slots.Perm ((.leased, task) :: { queue with leased }.slots) := by
  have moved : (queue.queue.map (Place.waiting, ·) ++ (leasedTasks queue.leased).map (Place.leased, ·)).Perm
      ((.leased, task) :: (queue.queue.map (Place.waiting, ·) ++
        (leasedTasks leased).map (Place.leased, ·))) :=
    ((same.map _).append_left _).trans perm_middle
  exact ((moved.append_right _).append_right _).append_right _

theorem slots_handOut {rest : List (Task features)}
    (waiting : queue.queue = task :: rest) (absent : task.id ∉ queue.leased) (leased : Task features)
    (deadline : Nat) : queue.slots.Perm ((.waiting, task) :: { queue with queue := rest }.slots) ∧
      { queue with queue := rest, leased := queue.leased.insert task.id (leased, deadline) }.slots.Perm
        ((.leased, leased) :: { queue with queue := rest }.slots) := by
  constructor
  · rw [slots, waiting]
    exact .refl _
  · exact slots_leased (.of_eq (leasedTasks_insert absent leased deadline))

theorem Keyed.insert (keyed : queue.Keyed) (task : Task features) (same : task.id = taskId) (deadline : Nat) :
    { queue with leased := queue.leased.insert taskId (task, deadline) }.Keyed := by
  refine forall_mem_cons.mpr ⟨same, fun entry member => ?_⟩
  exact keyed entry ((kerase_sublist _ _).subset member)

theorem Keyed.erase (keyed : queue.Keyed) (taskId : String) :
    { queue with leased := queue.leased.erase taskId }.Keyed :=
  fun entry member => keyed entry (kerase_sublist _ _ |>.subset member)

theorem Keyed.id_eq (keyed : queue.Keyed)
    (found : queue.leased.lookup taskId = some (task, deadline)) : task.id = taskId :=
  keyed _ (AList.mem_lookup_iff.mp found)

theorem withdraw_slots (keyed : queue.Keyed)
    {after : InMemoryQueue features} (withdrawn : queue.withdraw taskId = some (task, after)) :
    ∃ place, (place = .waiting ∨ place = .leased) ∧ task.id = taskId ∧ after.Keyed ∧
      queue.slots.Perm ((place, task) :: after.slots) := by
  unfold withdraw at withdrawn
  cases waiting : queue.queue.find? fun task => decide (task.id = taskId) with
  | some found =>
    rw [waiting] at withdrawn
    cases withdrawn
    refine ⟨.waiting, .inl rfl, by simpa using List.find?_some waiting, keyed, ?_⟩
    obtain ⟨found, front, rest, split, earlier⟩ := List.find?_eq_some_iff_append.mp waiting
    have erased : queue.queue.eraseP (fun task => decide (task.id = taskId)) = front ++ rest := by
      rw [split, eraseP_append_right _ fun other member => by simpa using earlier other member]
      simp [of_decide_eq_true found]
    simp only [slots, erased]
    rw [split, map_append, map_cons, map_append]
    exact (((perm_middle.append_right _).append_right _).append_right _).append_right _
  | none =>
    rw [waiting] at withdrawn
    cases leased : queue.leased.lookup taskId with
    | none =>
      rw [leased] at withdrawn
      cases withdrawn
    | some held =>
      rw [leased] at withdrawn
      cases withdrawn
      exact ⟨.leased, .inr rfl, keyed.id_eq leased, keyed.erase taskId, slots_leased (leasedTasks_erase leased)⟩

theorem retireOrRequeue_slots {place : Place} (held : place = .leased ∨ place = .taken)
    (task : Task features) (queue : InMemoryQueue features) :
    ∃ moved, Relocation (place, task) moved [] [task.id] ∧
      (retireOrRequeue task queue).2.slots.Perm (moved :: queue.slots) := by
  unfold retireOrRequeue
  dsimp only
  split_ifs with exhausted
  · exact ⟨_, .charge held rfl rfl rfl (if_pos exhausted).symm, slots_failed queue _⟩
  · exact ⟨_, .charge held rfl rfl rfl (if_neg exhausted).symm, slots_waiting queue _⟩

@[simp]
theorem retireOrRequeue_leased (task : Task features) (queue : InMemoryQueue features) :
    (retireOrRequeue task queue).2.leased = queue.leased := by
  unfold retireOrRequeue
  dsimp only
  split_ifs <;> rfl

theorem Keyed.of_leased (keyed : queue.Keyed) {other : InMemoryQueue features}
    (same : other.leased = queue.leased) : other.Keyed := by
  unfold Keyed
  rwa [same]

theorem reclaim_of_found (found : queue.leased.lookup taskId = some (task, deadline)) : queue.reclaim taskId =
      (retireOrRequeue task { queue with leased := queue.leased.erase taskId }).2 := by
  rw [reclaim, found]

theorem reclaim_lookup {taskId other : String} (apart : other ≠ taskId) :
    (queue.reclaim taskId).leased.lookup other = queue.leased.lookup other := by
  unfold reclaim
  split
  · rw [retireOrRequeue_leased]
    exact AList.lookup_erase_ne apart
  · rfl

theorem foldl_reclaim_lookup {ids : List String} {other : String} (apart : other ∉ ids)
    (queue : InMemoryQueue features) :
    (ids.foldl reclaim queue).leased.lookup other = queue.leased.lookup other := by
  induction ids generalizing queue with
  | nil => rfl
  | cons id ids ih =>
    rw [foldl_cons, ih (not_mem_of_not_mem_cons apart), reclaim_lookup (ne_of_not_mem_cons apart)]

theorem mem_expired {keys : List String} {now : Nat} : taskId ∈ queue.expired keys now ↔ taskId ∈ keys ∧
      ∃ task deadline, queue.leased.lookup taskId = some (task, deadline) ∧ deadline ≤ now := by
  rw [expired, mem_filter]
  cases found : queue.leased.lookup taskId with
  | none => simp
  | some lease =>
    obtain ⟨task, deadline⟩ := lease
    simp

end InMemoryQueue

/-! ## Runs -/

inductive QueueCall (features : Features) where
  | push (task : Task features)
  | pull (keys : List String) (now later : Nat)
  | ack (taskId : String)
  | reportFailure (taskId : String)
  | extendLease (taskId : String) (extra : Nat)
  | cancel (taskId : String)
  | takeById (taskId : String)
  | recordTakenTaskFailure (task : Task features)

/-- A queue with what has happened to it: the tasks pushed and those now taken, and the ids of the
tasks handed out and of those charged for an expired lease or a failure, in order. -/
structure World (features : Features) where
  queue : InMemoryQueue features
  pushed : List (Task features)
  taken : List (Task features)
  handed : List String
  charged : List String

namespace World

def new (leaseTimeout : Nat) : World features where
  queue := .new leaseTimeout
  pushed := []
  taken := []
  handed := []
  charged := []

def perform (blake3 : Bytes → EntryHash) (world : World features) : QueueCall features → World features
  | .push task =>
    { world with
      queue := world.queue.push blake3 task
      pushed := world.pushed ++ [task] }
  | .pull keys now later =>
    let (task, queue) := world.queue.pull keys now later
    { world with
      queue
      handed := world.handed ++ task.toList.map Task.id
      charged := world.charged ++ world.queue.expired keys now }
  | .ack taskId => { world with queue := world.queue.ack taskId }
  | .reportFailure taskId =>
    let (outcome, queue) := world.queue.reportFailure taskId
    { world with
      queue
      charged := world.charged ++ outcome.toList.map fun _ => taskId }
  | .extendLease taskId extra => { world with queue := (world.queue.extendLease taskId extra).2 }
  | .cancel taskId => { world with queue := (world.queue.cancel taskId).2 }
  | .takeById taskId =>
    let (task, queue) := world.queue.takeById taskId
    { world with queue, taken := world.taken ++ task.toList }
  | .recordTakenTaskFailure task =>
    { world with
      queue := (world.queue.recordTakenTaskFailure task).2
      taken := world.taken.eraseP fun other => decide (other.id = task.id)
      charged := world.charged ++ [task.id] }

/-- New tasks have ids of their own and no attempts, the leases are visited in some order, and a failure
is recorded for a task that is taken. -/
def Allows (world : World features) : QueueCall features → Prop
  | .push task => task.attempts = 0 ∧ task.id ∉ world.pushed.map Task.id
  | .pull keys _ _ => keys.Perm world.queue.leased.keys
  | .recordTakenTaskFailure task => task ∈ world.taken
  | _ => True

def Step (blake3 : Bytes → EntryHash) (before after : World features) : Prop :=
  ∃ call, before.Allows call ∧ after = before.perform blake3 call

def slots (world : World features) : List (Slot features) :=
  world.taken.map (Place.taken, ·) ++ world.queue.slots

structure Sound (world : World features) : Prop where
  accounts : Accounts world.pushed world.handed world.charged world.slots
  keyed : world.queue.Keyed

/-- The tasks in terminal places stay there, and are not handed out. -/
def Retires (before after : World features) : Prop :=
  ∀ slot ∈ before.slots, slot.1.Terminal →
    slot ∈ after.slots ∧ after.handed.count slot.2.id = before.handed.count slot.2.id

variable {before after : World features}

/-- A call moves one task. -/
structure Moves (before after : World features) (handouts charges : List String) : Prop where
  pushed : after.pushed = before.pushed
  handed : after.handed = before.handed ++ handouts
  charged : after.charged = before.charged ++ charges
  keyed : before.queue.Keyed → after.queue.Keyed
  relocated : ∃ slot moved rest, Relocation slot moved handouts charges ∧
    before.slots.Perm (slot :: rest) ∧ after.slots.Perm (moved :: rest)

theorem Retires.refl (world : World features) : world.Retires world :=
  fun _ member _ => ⟨member, rfl⟩

theorem Retires.trans {last : World features} (first : before.Retires after)
    (second : after.Retires last) : before.Retires last := by
  intro slot member terminal
  obtain ⟨kept, same⟩ := first slot member terminal
  obtain ⟨keptLast, sameLast⟩ := second slot kept terminal
  exact ⟨keptLast, sameLast.trans same⟩

variable {handouts charges : List String} {task : Task features}

theorem Moves.sound (moves : before.Moves after handouts charges) (sound : before.Sound) : after.Sound := by
  obtain ⟨slot, moved, rest, relocation, left, placed⟩ := moves.relocated
  refine ⟨?_, moves.keyed sound.keyed⟩
  rw [moves.pushed, moves.handed, moves.charged]
  exact ((sound.accounts.perm left.symm).relocate relocation).perm placed

theorem Moves.retires (moves : before.Moves after handouts charges)
    (sound : before.Sound) : before.Retires after := by
  obtain ⟨slot, moved, rest, relocation, left, placed⟩ := moves.relocated
  have distinct := (sound.accounts.perm left.symm).slot_ids_nodup
  have unique : ∀ other ∈ rest, other.2.id ≠ slot.2.id := fun other member same =>
    (nodup_cons.mp distinct).1 (mem_map.mpr ⟨other, member, same⟩)
  intro other member terminal
  rw [placed.mem_iff, moves.handed, count_append]
  obtain rfl | elsewhere := mem_cons.mp (left.mem_iff.mp member)
  · obtain ⟨rfl, rfl⟩ := relocation.of_terminal terminal
    exact ⟨mem_cons_self, rfl⟩
  · refine ⟨mem_cons_of_mem _ elsewhere, ?_⟩
    have absent : other.2.id ∉ handouts := fun handed =>
      unique other elsewhere (relocation.handouts_eq _ handed)
    rw [count_eq_zero.mpr absent, Nat.add_zero]

/-- What a call does to a sound world. -/
def Progresses (before after : World features) : Prop :=
  before.Sound → after.Sound ∧ before.Retires after

theorem Progresses.refl (world : World features) : world.Progresses world :=
  fun sound => ⟨sound, .refl world⟩

theorem Progresses.trans {last : World features} (first : before.Progresses after)
    (second : after.Progresses last) : before.Progresses last := by
  intro sound
  obtain ⟨sound, retires⟩ := first sound
  obtain ⟨soundLast, retiresLast⟩ := second sound
  exact ⟨soundLast, retires.trans retiresLast⟩

theorem Moves.progresses (moves : before.Moves after handouts charges) : before.Progresses after :=
  fun sound => ⟨moves.sound sound, moves.retires sound⟩

variable (blake3 : Bytes → EntryHash) (world : World features) (taskId : String)

theorem push_progresses (unused : task.attempts = 0) (fresh : task.id ∉ world.pushed.map Task.id) :
    world.Progresses (world.perform blake3 (.push task)) := by
  intro sound
  let queued := { task with
    runConfigHash := (task.runConfig.canonicalHash blake3).toOption
    status := TaskStatus.queued }
  have placed : (world.perform blake3 (.push task)).slots.Perm ((.waiting, queued) :: world.slots) :=
    ((slots_waiting world.queue _).append_left _).trans perm_middle
  refine ⟨⟨(sound.accounts.add fresh unused queued rfl rfl rfl).perm placed, sound.keyed⟩, ?_⟩
  exact fun slot member _ => ⟨placed.mem_iff.mpr (mem_cons_of_mem _ member), rfl⟩

theorem reclaim_progresses {taskId : String} (leased : (world.queue.leased.lookup taskId).isSome) :
    world.Progresses
      { world with queue := world.queue.reclaim taskId, charged := world.charged ++ [taskId] } := by
  intro sound
  obtain ⟨⟨task, deadline⟩, found⟩ := Option.isSome_iff_exists.mp leased
  obtain rfl := sound.keyed.id_eq found
  obtain ⟨moved, relocation, placed⟩ := retireOrRequeue_slots (.inl rfl) task
    { world.queue with leased := world.queue.leased.erase task.id }
  rw [reclaim_of_found found]
  refine Moves.progresses ⟨rfl, (append_nil _).symm, rfl, fun keyed => ?_, _, moved, _, relocation,
    ((slots_leased (leasedTasks_erase found)).append_left _).trans
      perm_middle, (placed.append_left _).trans perm_middle⟩ sound
  exact (keyed.erase task.id).of_leased (retireOrRequeue_leased ..)

theorem reclaimAll_progresses {ids : List String} (distinct : ids.Nodup)
    (leased : ∀ id ∈ ids, (world.queue.leased.lookup id).isSome) :
    world.Progresses
      { world with
        queue := ids.foldl reclaim world.queue
        charged := world.charged ++ ids } := by
  induction ids generalizing world with
  | nil =>
    rw [append_nil]
    exact .refl world
  | cons id ids ih =>
    obtain ⟨absent, distinct⟩ := nodup_cons.mp distinct
    have first := world.reclaim_progresses (leased id mem_cons_self)
    have rest := ih { world with
      queue := world.queue.reclaim id, charged := world.charged ++ [id] } distinct
      fun other member => by
        rw [reclaim_lookup (ne_of_mem_of_not_mem member absent)]
        exact leased other (mem_cons_of_mem _ member)
    rw [append_assoc, singleton_append] at rest
    exact first.trans rest

theorem reportFailure_progresses :
    world.Progresses (world.perform blake3 (.reportFailure taskId)) := by
  cases found : world.queue.leased.lookup taskId with
  | none =>
    simp only [perform, reportFailure, found, Option.toList_none, map_nil, append_nil]
    exact .refl world
  | some lease =>
    simp only [perform, reportFailure, found, Option.toList_some, map_singleton]
    rw [← InMemoryQueue.reclaim_of_found found]
    exact world.reclaim_progresses (by rw [found]; rfl)

theorem reclaimExpired_progresses {keys : List String} (order : keys.Perm world.queue.leased.keys) (now : Nat) :
    world.Progresses
      { world with
        queue := world.queue.reclaimExpired keys now
        charged := world.charged ++ world.queue.expired keys now } := by
  refine world.reclaimAll_progresses ((order.nodup_iff.mpr world.queue.leased.keys_nodup).filter _) ?_
  intro id member
  obtain ⟨_, task, deadline, found, _⟩ := InMemoryQueue.mem_expired.mp member
  rw [found]
  rfl

theorem mem_slots_of_waiting (waiting : task ∈ world.queue.queue) : (Place.waiting, task) ∈ world.slots := by
  simp [slots, InMemoryQueue.slots, waiting]

theorem mem_slots_of_leased {taskId : String} {deadline : Nat}
    (found : world.queue.leased.lookup taskId = some (task, deadline)) :
    (Place.leased, task) ∈ world.slots := by
  have entry : (⟨taskId, (task, deadline)⟩ : Sigma fun _ : String => Task features × Nat) ∈
      world.queue.leased.entries := AList.mem_lookup_iff.mp found
  have held : task ∈ leasedTasks world.queue.leased := mem_map.mpr ⟨_, entry, rfl⟩
  simp [slots, InMemoryQueue.slots, held]

variable {world} in
theorem Sound.slot_unique (sound : world.Sound) {first second : Slot features}
    (left : first ∈ world.slots) (right : second ∈ world.slots) (same : first.2.id = second.2.id) :
    first = second :=
  inj_on_of_nodup_map sound.accounts.slot_ids_nodup left right same

theorem Sound.lookup_waiting {world : World features} (sound : world.Sound)
    (waiting : task ∈ world.queue.queue) : world.queue.leased.lookup task.id = none := by
  cases found : world.queue.leased.lookup task.id with
  | none => rfl
  | some lease =>
    have same := sound.slot_unique (world.mem_slots_of_waiting waiting)
      (world.mem_slots_of_leased found) (sound.keyed.id_eq found).symm
    cases same

theorem pull_progresses {keys : List String}
    (order : keys.Perm world.queue.leased.keys) (now later : Nat) :
    world.Progresses (world.perform blake3 (.pull keys now later)) := by
  refine (world.reclaimExpired_progresses order now).trans fun sound => ?_
  cases waiting : (world.queue.reclaimExpired keys now).queue with
  | nil =>
    simp only [perform, InMemoryQueue.pull, waiting, Option.toList_none, map_nil, append_nil]
    exact ⟨sound, .refl _⟩
  | cons task rest =>
    simp only [perform, InMemoryQueue.pull, waiting, Option.toList_some, map_singleton]
    have absent : task.id ∉ (world.queue.reclaimExpired keys now).leased := by
      rw [← AList.lookup_eq_none]
      exact sound.lookup_waiting (by show task ∈ InMemoryQueue.queue _; rw [waiting]; simp)
    obtain ⟨left, placed⟩ := InMemoryQueue.slots_handOut waiting absent
      { task with status := .leased }
      (later + (world.queue.reclaimExpired keys now).leaseTimeout)
    exact Moves.progresses ⟨rfl, rfl, (append_nil _).symm, fun keyed =>
      (keyed.insert { task with status := .leased } rfl _).of_leased rfl, _, _, _, .handOut task .leased, (left.append_left _).trans perm_middle,
      (placed.append_left _).trans perm_middle⟩ sound

theorem ack_progresses :
    world.Progresses (world.perform blake3 (.ack taskId)) := by
  cases found : world.queue.leased.lookup taskId with
  | none =>
    simp only [perform, InMemoryQueue.ack, found]
    exact .refl world
  | some lease =>
    simp only [perform, InMemoryQueue.ack, found]
    exact Moves.progresses ⟨rfl, (append_nil _).symm, (append_nil _).symm, fun keyed =>
      keyed.erase taskId, _, _, _, .putAside lease.1 .done (.inr rfl) (.inr (.inr rfl)),
      ((InMemoryQueue.slots_leased (InMemoryQueue.leasedTasks_erase found)).append_left _).trans
        perm_middle,
      ((InMemoryQueue.slots_done
        { world.queue with leased := world.queue.leased.erase taskId } _).append_left _).trans
        perm_middle⟩

theorem extendLease_progresses (extra : Nat) :
    world.Progresses (world.perform blake3 (.extendLease taskId extra)) := by
  cases found : world.queue.leased.lookup taskId with
  | none =>
    simp only [perform, extendLease, found]
    exact .refl world
  | some lease =>
    simp only [perform, extendLease, found]
    intro sound
    have erased := leasedTasks_erase found
    exact Moves.progresses ⟨rfl, (append_nil _).symm, (append_nil _).symm, fun keyed =>
      keyed.insert lease.1 (keyed.id_eq found) _, _, _, _, .stay (.leased, lease.1),
      ((slots_leased erased).append_left _).trans perm_middle,
      ((slots_leased (.refl _)).append_left _).trans perm_middle⟩ sound

theorem cancel_progresses :
    world.Progresses (world.perform blake3 (.cancel taskId)) := by
  intro sound
  cases withdrawn : world.queue.withdraw taskId with
  | none =>
    simp only [perform, cancel, withdrawn]
    exact ⟨sound, .refl world⟩
  | some found =>
    obtain ⟨task, after⟩ := found
    obtain ⟨place, held, _, keyed, left⟩ := withdraw_slots sound.keyed withdrawn
    simp only [perform, cancel, withdrawn]
    exact Moves.progresses ⟨rfl, (append_nil _).symm, (append_nil _).symm, fun _ =>
      keyed.of_leased rfl, _, _, _, .putAside task .cancelled held (.inr (.inl rfl)),
      (left.append_left _).trans perm_middle,
      ((slots_cancelled after _).append_left _).trans perm_middle⟩ sound

theorem takeById_progresses :
    world.Progresses (world.perform blake3 (.takeById taskId)) := by
  intro sound
  cases withdrawn : world.queue.withdraw taskId with
  | none =>
    simp only [perform, takeById, withdrawn, Option.toList_none, append_nil]
    exact ⟨sound, .refl world⟩
  | some found =>
    obtain ⟨task, after⟩ := found
    obtain ⟨place, held, _, keyed, left⟩ := withdraw_slots sound.keyed withdrawn
    simp only [perform, takeById, withdrawn, Option.toList_some]
    refine Moves.progresses ⟨rfl, (append_nil _).symm, (append_nil _).symm, fun _ => keyed,
      _, _, _, .putAside task task.status held (.inl rfl),
      (left.append_left _).trans perm_middle, ?_⟩ sound
    rw [slots, map_append, append_assoc]
    exact perm_middle

theorem recordTakenTaskFailure_progresses (taken : task ∈ world.taken) :
    world.Progresses (world.perform blake3 (.recordTakenTaskFailure task)) := by
  intro sound
  obtain ⟨front, rest, split⟩ := append_of_mem taken
  have apart : ∀ other ∈ front, other.id ≠ task.id := by
    intro other member same
    have distinct := sound.accounts.slot_ids_nodup
    rw [slots, split] at distinct
    simp only [map_append, map_map, map_cons, append_assoc] at distinct
    exact disjoint_of_nodup_append distinct (mem_map.mpr ⟨other, member, rfl⟩)
      (mem_append_left _ (mem_cons.mpr (.inl same)))
  have erased : (world.taken.eraseP fun other => decide (other.id = task.id)) = front ++ rest := by
    rw [split, eraseP_append_right _ fun other member => by simpa using apart other member]
    simp
  obtain ⟨moved, relocation, placed⟩ :=
    retireOrRequeue_slots (.inr rfl) task world.queue
  refine Moves.progresses ⟨rfl, (append_nil _).symm, rfl, fun keyed => ?_, _, moved,
    (front ++ rest).map (Place.taken, ·) ++ world.queue.slots, relocation, ?_, ?_⟩ sound
  · exact keyed.of_leased (retireOrRequeue_leased ..)
  · rw [slots, split, map_append, map_cons, map_append]
    exact perm_middle.append_right _
  · simp only [perform, slots, erased]
    exact (placed.append_left _).trans perm_middle

theorem perform_progresses {call : QueueCall features}
    (allowed : world.Allows call) : world.Progresses (world.perform blake3 call) := by
  cases call with
  | push task => exact world.push_progresses blake3 allowed.1 allowed.2
  | pull keys now later => exact world.pull_progresses blake3 allowed now later
  | ack taskId => exact world.ack_progresses blake3 taskId
  | reportFailure taskId => exact world.reportFailure_progresses blake3 taskId
  | extendLease taskId extra => exact world.extendLease_progresses blake3 taskId extra
  | cancel taskId => exact world.cancel_progresses blake3 taskId
  | takeById taskId => exact world.takeById_progresses blake3 taskId
  | recordTakenTaskFailure task => exact world.recordTakenTaskFailure_progresses blake3 allowed

variable {world}

theorem run_progresses {blake3 : Bytes → EntryHash}
    (run : Relation.ReflTransGen (Step blake3) before after) : before.Progresses after := by
  induction run with
  | refl => exact .refl before
  | tail _ step ih =>
    obtain ⟨call, allowed, rfl⟩ := step
    exact ih.trans (perform_progresses blake3 _ allowed)

theorem sound_new (leaseTimeout : Nat) : (World.new leaseTimeout : World features).Sound where
  accounts :=
    { distinct := nodup_nil
      located := .refl _
      known := forall_mem_nil _
      original := forall_mem_nil _
      charges := forall_mem_nil _
      budget := forall_mem_nil _ }
  keyed := forall_mem_nil _

end World

/-- The ids in the waiting queue, the leases and the terminal lists, one list after the other. -/
def InMemoryQueue.held (queue : InMemoryQueue features) : List String :=
  queue.queue.map Task.id ++ queue.leased.keys ++ queue.failed.map Task.id ++
    queue.cancelled.map Task.id ++ queue.done.map Task.id

def InMemoryQueue.terminal (queue : InMemoryQueue features) : List (Task features) :=
  queue.failed ++ queue.cancelled ++ queue.done

namespace World

variable {world : World features}

theorem Sound.held_eq (sound : world.Sound) :
    world.queue.held = world.queue.slots.map fun slot => slot.2.id := by
  have keys : world.queue.leased.keys = (leasedTasks world.queue.leased).map Task.id := by
    rw [leasedTasks, map_map]
    exact map_congr_left fun entry member => (sound.keyed entry member).symm
  simp only [InMemoryQueue.held, InMemoryQueue.slots, keys, map_append, map_map]
  rfl

variable {task : Task features}

theorem Sound.held_once (sound : world.Sound) (pushed : task ∈ world.pushed)
    (here : task.id ∉ world.taken.map Task.id) : world.queue.held.count task.id = 1 := by
  have located : (world.taken.map Task.id ++ world.queue.held).Perm (world.pushed.map Task.id) := by
    rw [sound.held_eq]
    have located := sound.accounts.located
    rw [slots, map_append, map_map] at located
    exact located
  have once := located.count_eq task.id
  rwa [count_append, count_eq_zero.mpr here, Nat.zero_add,
    count_eq_one_of_mem sound.accounts.distinct (mem_map.mpr ⟨task, pushed, rfl⟩)] at once

theorem Sound.pull_expired (sound : world.Sound) {keys : List String}
    (order : keys.Perm world.queue.leased.keys) {now later : Nat}
    (pulled : (world.queue.pull keys now later).1 = some task) {held : Task features} {deadline : Nat}
    (found : world.queue.leased.lookup task.id = some (held, deadline)) : deadline ≤ now := by
  by_contra late
  have kept : task.id ∉ world.queue.expired keys now := by
    intro member
    obtain ⟨_, _, _, same, due⟩ := mem_expired.mp member
    cases found.symm.trans same
    exact late due
  have leased := foldl_reclaim_lookup kept world.queue
  have reclaimed := (world.reclaimExpired_progresses order now sound).1
  cases waiting : (world.queue.reclaimExpired keys now).queue with
  | nil =>
    rw [InMemoryQueue.pull, waiting] at pulled
    cases pulled
  | cons first rest =>
    rw [InMemoryQueue.pull, waiting] at pulled
    cases pulled
    have free := reclaimed.lookup_waiting
      (by show first ∈ InMemoryQueue.queue _; rw [waiting]; exact mem_cons_self)
    rw [show InMemoryQueue.leased _ = _ from rfl, InMemoryQueue.reclaimExpired, leased, found] at free
    cases free

theorem Sound.handed_le (sound : world.Sound) (pushed : task ∈ world.pushed) :
    world.handed.count task.id ≤ max 1 task.maxAttempts.toNat := by
  obtain ⟨slot, member, same⟩ := mem_map.mp
    (sound.accounts.located.mem_iff.mpr (mem_map.mpr ⟨task, pushed, rfl⟩))
  have within := (sound.accounts.budget slot member).handouts_le
  rwa [same, sound.accounts.original slot member task pushed same.symm] at within

theorem mem_slots_of_terminal (member : task ∈ world.queue.terminal) :
    ∃ place : Place, place.Terminal ∧ (place, task) ∈ world.slots := by
  rw [InMemoryQueue.terminal, mem_append, mem_append] at member
  obtain (failed | cancelled) | done := member
  · exact ⟨.failed, .inl rfl, by simp [slots, InMemoryQueue.slots, failed]⟩
  · exact ⟨.cancelled, .inr (.inl rfl), by simp [slots, InMemoryQueue.slots, cancelled]⟩
  · exact ⟨.done, .inr (.inr rfl), by simp [slots, InMemoryQueue.slots, done]⟩

theorem mem_terminal_of_slots {place : Place} (terminal : place.Terminal)
    (member : (place, task) ∈ world.slots) : task ∈ world.queue.terminal := by
  obtain rfl | rfl | rfl := terminal <;>
    simp [slots, InMemoryQueue.slots, InMemoryQueue.terminal] at member ⊢ <;> tauto

def tasks (world : World features) : List (Task features) :=
  world.slots.map Prod.snd

/-- Pushed tasks are conserved: one that is not taken is in one place only; a task with a live lease is
not handed out; attempts are charged by expired leases and failures alone; no task is handed out
beyond its budget, and none once it is in a terminal list. -/
theorem reached_conserves (blake3 : Bytes → EntryHash) (leaseTimeout : Nat) {world : World features}
    (reached : Relation.ReflTransGen (Step blake3) (World.new leaseTimeout) world) :
    (∀ task ∈ world.pushed, task.id ∉ world.taken.map Task.id → world.queue.held.count task.id = 1) ∧
      (∀ keys now later task held deadline, keys.Perm world.queue.leased.keys →
        (world.queue.pull keys now later).1 = some task →
        world.queue.leased.lookup task.id = some (held, deadline) → deadline ≤ now) ∧
      (∀ task ∈ world.tasks, task.attempts.toNat = world.charged.count task.id) ∧
      (∀ task ∈ world.pushed, world.handed.count task.id ≤ max 1 task.maxAttempts.toNat) ∧
      ∀ task ∈ world.queue.terminal, ∀ later, Relation.ReflTransGen (Step blake3) world later →
        task ∈ later.queue.terminal ∧ later.handed.count task.id = world.handed.count task.id := by
  have sound := (run_progresses reached (sound_new leaseTimeout)).1
  refine ⟨fun task pushed here => sound.held_once pushed here,
    fun keys now later task held deadline order pulled found => sound.pull_expired order pulled found,
    ?_, fun task pushed => sound.handed_le pushed, ?_⟩
  · intro task member
    obtain ⟨slot, listed, rfl⟩ := mem_map.mp member
    exact sound.accounts.charges slot listed
  · intro task member later run
    obtain ⟨place, terminal, listed⟩ := mem_slots_of_terminal member
    obtain ⟨kept, same⟩ := (run_progresses run sound).2 _ listed terminal
    exact ⟨mem_terminal_of_slots terminal kept, same⟩

def zeroDigest (_ : Bytes) : EntryHash :=
  ⟨⟨List.replicate 32 0, length_zeros⟩⟩

/-- A job whose first lease runs out, and that is handed out once more and done. -/
def retriedJob : World ⟨false⟩ :=
  [.push (.new "job" (.default _) "echo"), .pull [] 0 0, .pull ["job"] 5 6, .ack "job"].foldl
    (perform zeroDigest) (.new 5)

theorem retriedJob_conserved : retriedJob.queue.held.count "job" = 1 ∧
    retriedJob.handed.count "job" = 2 := by
  have reached : Relation.ReflTransGen (Step zeroDigest) (World.new 5) retriedJob := by
    refine .tail (.tail (.tail (.tail .refl
      ⟨.push (.new "job" (.default _) "echo"), ?_, rfl⟩) ⟨.pull [] 0 0, ?_, rfl⟩)
      ⟨.pull ["job"] 5 6, ?_, rfl⟩) ⟨.ack "job", trivial, rfl⟩
    · exact ⟨rfl, not_mem_nil⟩
    · exact .refl _
    · exact .refl _
  refine ⟨(reached_conserves zeroDigest 5 reached).1 (.new "job" (.default _) "echo") ?_ ?_, ?_⟩
  · exact mem_singleton_self _
  · decide +kernel
  · decide +kernel

end World

end Ldgr.Worker
