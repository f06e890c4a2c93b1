import Ldgr.Journal.Causality
import Ldgr.Sim.Boundary

/-! What the effects of a task leave alone: the journal only grows, and apart from the two ways of
parking none of them moves the clock, wakes a task or finishes one. -/

namespace Ldgr.Sim

open Base Format Action

/-! ## Views -/

/-- Whether the task is parked, and whether it is done. -/
def TaskEntry.status (entry : TaskEntry) : Option BlockedOn × Bool :=
  (entry.blockedOn, entry.done)

namespace World

/-- The part of the world that decides which tasks can run, and when. -/
def standing (world : World) : List (Option BlockedOn × Bool) × List Nat × VirtualTime :=
  (world.tasks.map TaskEntry.status, world.ready, world.time)

/-- The world apart from the journal and what is counted and noted about it. -/
def unjournaled (world : World) : World :=
  { world with journal := Journal.new, coverage := ∅, emitted := [], journalError := none }

theorem standing_of_unjournaled {before after : World}
    (same : Action.Same unjournaled before after) : Action.Same standing before after := by
  have agree : after.unjournaled.standing = before.unjournaled.standing := congrArg standing same
  exact agree

theorem map_status_modify {tasks : List TaskEntry} {task : Nat} {change : TaskEntry → TaskEntry}
    (keeps : ∀ entry, (change entry).status = entry.status) :
    (tasks.modify task change).map TaskEntry.status = tasks.map TaskEntry.status := by
  refine List.ext_getElem? fun index => ?_
  rw [List.getElem?_map, List.getElem?_map, List.getElem?_modify]
  cases tasks[index]? with
  | none => rfl
  | some entry =>
    by_cases here : task = index
    · simp [here, keeps]
    · simp [here]

theorem standing_updateTask {task : Nat} {change : TaskEntry → TaskEntry} (world : World)
    (keeps : ∀ entry, (change entry).status = entry.status) :
    Action.Same standing world (world.updateTask task change) := by
  show (((world.tasks.modify task change).map TaskEntry.status, world.ready, world.time) :
    List (Option BlockedOn × Bool) × List Nat × VirtualTime) = _
  rw [map_status_modify keeps]
  rfl

end World

/-! ## Effects -/

/-- The journal only gains entries, and a fault noted about it stays noted. -/
structure Records (env : Environment) (before after : World) : Prop where
  journal : Journal.Writes env.blake3 before.journal after.journal
  faultless : after.journalError = none → before.journalError = none

/-- Nothing but the journal and what is counted and noted about it changes. -/
structure Journaled (env : Environment) (before after : World) : Prop where
  unjournaled : Action.Same World.unjournaled before after
  records : Records env before after

/-- What a task can do without parking. -/
structure Effect (env : Environment) (before after : World) : Prop where
  standing : Action.Same World.standing before after
  records : Records env before after

section Relations

variable {env : Environment}

variable {before after : World}

theorem Records.of_eq (journal : after.journal = before.journal)
    (fault : after.journalError = before.journalError) : Records env before after where
  journal := by
    rw [journal]
    exact Std.Refl.refl _
  faultless none := by rw [← fault, none]

theorem Records.trans {first second third : World} (left : Records env first second)
    (right : Records env second third) : Records env first third where
  journal := IsTrans.trans _ _ _ left.journal right.journal
  faultless none := left.faultless (right.faultless none)

instance : Std.Refl (Records env) where
  refl _ := .of_eq rfl rfl

instance : IsTrans World (Records env) where
  trans _ _ _ := Records.trans

instance : Std.Refl (Journaled env) where
  refl world := ⟨rfl, Std.Refl.refl world⟩

instance : IsTrans World (Journaled env) where
  trans _ _ _ left right :=
    ⟨IsTrans.trans _ _ _ left.unjournaled right.unjournaled, left.records.trans right.records⟩

instance : Std.Refl (Effect env) where
  refl world := ⟨rfl, Std.Refl.refl world⟩

instance : IsTrans World (Effect env) where
  trans _ _ _ left right :=
    ⟨IsTrans.trans _ _ _ left.standing right.standing, left.records.trans right.records⟩

theorem Journaled.effect (journaled : Journaled env before after) : Effect env before after :=
  ⟨World.standing_of_unjournaled journaled.unjournaled, journaled.records⟩

theorem Journaled.of_eq (unjournaled : Action.Same World.unjournaled before after)
    (journal : after.journal = before.journal)
    (fault : after.journalError = before.journalError) : Journaled env before after :=
  ⟨unjournaled, .of_eq journal fault⟩

theorem Effect.of_eq (standing : Action.Same World.standing before after)
    (journal : after.journal = before.journal)
    (fault : after.journalError = before.journalError) : Effect env before after :=
  ⟨standing, .of_eq journal fault⟩

theorem recordJournalError_journaled (world : World) (fault : JournalError) :
    Journaled env world (world.recordJournalError fault) where
  unjournaled := rfl
  records :=
    { journal := Std.Refl.refl _
      faultless := by
        intro none
        cases noted : world.journalError with
        | none => rfl
        | some earlier => simp [World.recordJournalError, noted] at none }

end Relations

/-! ## Storage -/

namespace SimFs

/-- The journal a storage operation works on only gains entries. -/
def Grows (blake3 : Bytes → EntryHash) (before after : Journal × SimFs) : Prop :=
  Journal.Writes blake3 before.1 after.1

variable {blake3 : Bytes → EntryHash}

instance : Std.Refl (Grows blake3) where
  refl state := Std.Refl.refl state.1

instance : IsTrans (Journal × SimFs) (Grows blake3) where
  trans _ _ _ first second := IsTrans.trans (r := Journal.Writes blake3) _ _ _ first second

theorem journaled_grows (kind : EntryKind) (actor : ActorId) (parents : List EntryHash)
    (payload : EntryPayload) :
    (journaled blake3 kind actor parents payload).Relates (Grows blake3) :=
  Action.Relates.mapError fun state => Journal.append_writes _ _ _ _ _ state.1

theorem update_grows (change : SimFs → SimFs) : (update change).Relates (Grows blake3) :=
  fun state => Std.Refl.refl state.1

theorem write_grows (actor : ActorId) (path : String) (value : UInt64) :
    (write blake3 actor path value).Relates (Grows blake3) := by
  refine Action.Relates.mapError ?_
  refine relates_get.bind fun state => (relates_ofExcept _).bind fun _ =>
    (journaled_grows _ _ _ _).bind fun id => ?_
  split
  · exact relates_pure _
  · exact (update_grows _).bind fun _ => relates_pure _

theorem fsync_grows (actor : ActorId) : (fsync blake3 actor).Relates (Grows blake3) :=
  (journaled_grows _ _ _ _).bind fun _ => (update_grows _).bind fun _ => relates_pure _

theorem read_grows (actor : ActorId) (path : String) : (read blake3 actor path).Relates (Grows blake3) := by
  refine Action.Relates.bind (Action.Relates.mapError ?_) fun _ => relates_pure _
  unfold readBytes
  split
  · exact relates_fail _
  · exact relates_get.bind fun state =>
      (journaled_grows _ _ _ _).bind fun _ => relates_pure _

end SimFs

/-! ## Journaling -/

variable {α : Type}

theorem Relates.recorded {relation : World → World → Prop} [IsTrans World relation]
    {action : Action World JournalError α} (relates : action.Relates relation)
    (noting : ∀ world fault, relation world (world.recordJournalError fault)) :
    (recorded action).Relates relation := by
  intro world
  have before := relates world
  unfold Sim.recorded
  cases result : action world with
  | mk outcome after =>
    rw [result] at before
    cases outcome with
    | error fault => exact IsTrans.trans _ _ _ before (noting after fault)
    | ok value => exact before

variable (env : Environment)

theorem recorded_journaled {action : Action World JournalError α}
    (relates : action.Relates (Journaled env)) : (recorded action).Relates (Journaled env) :=
  Relates.recorded relates recordJournalError_journaled

theorem recorded_effect {action : Action World JournalError α}
    (relates : action.Relates (Effect env)) : (recorded action).Relates (Effect env) :=
  Relates.recorded relates fun world fault => (recordJournalError_journaled world fault).effect

theorem stored_journaled {action : Action Journal JournalError α}
    (writes : action.Relates (Journal.Writes env.blake3)) :
    (action.zoom World.journal fun world journal => { world with journal }).Relates (Journaled env) :=
  fun world => ⟨rfl, writes world.journal, id⟩

theorem journalAppend_journaled (actor : ActorId) (kind : EntryKind) (parents : List EntryHash)
    (payload : EntryPayload) :
    (journalAppend env actor kind parents payload).Relates (Journaled env) := by
  refine (stored_journaled env (Journal.append_writes _ _ _ _ _)).bind fun _ => ?_
  exact Action.Relates.bind (relates_modify fun _ => .of_eq rfl rfl rfl) fun _ => relates_pure _

theorem cover_journaled (world : World) (batch : List BatchEntry) :
    Journaled env world (batch.foldl (fun world entry => world.cover entry.actor) world) := by
  induction batch generalizing world with
  | nil => exact Std.Refl.refl world
  | cons entry rest ih =>
    have covered : Journaled env world (world.cover entry.actor) := .of_eq rfl rfl rfl
    exact IsTrans.trans _ _ _ covered (ih _)

theorem journalAppendBatch_journaled (batch : List BatchEntry) :
    (journalAppendBatch env batch).Relates (Journaled env) := by
  refine (stored_journaled env (Journal.appendBatch_writes _ _)).bind fun _ => ?_
  exact Action.Relates.bind (relates_modify fun world => cover_journaled env world batch)
    fun _ => relates_pure _

theorem notifyEntry_journaled (actor : ActorId) (kind : EntryKind) (task : Nat) (entryId : Option EntryHash) :
    (notifyEntry env actor kind task entryId).Relates (Journaled env) :=
  relates_modify fun _ => .of_eq rfl rfl rfl

namespace Boundary

variable (task : Nat)

theorem append_journaled (kind : EntryKind) (parents : List EntryHash) (payload : EntryPayload) :
    (append env task kind parents payload).Relates (Journaled env) :=
  (journalAppend_journaled env _ kind parents payload).bind fun _ =>
    (notifyEntry_journaled env _ kind task _).bind fun _ => relates_pure _

theorem append_effect (kind : EntryKind) (parents : List EntryHash) (payload : EntryPayload) :
    (append env task kind parents payload).Relates (Effect env) :=
  (append_journaled env task kind parents payload).mono fun _ _ =>
    Journaled.effect

theorem appendRecorded_journaled (kind : EntryKind) (parents : List EntryHash) (payload : EntryPayload) :
    (appendRecorded env task kind parents payload).Relates (Journaled env) :=
  (recorded_journaled env (append_journaled env task kind parents payload)).bind fun _ =>
    relates_pure _

theorem appendFault_effect (parents : List EntryHash) (fault : FaultPayload) :
    (appendFault env task parents fault).Relates (Effect env) :=
  (appendRecorded_journaled env task _ parents _).mono fun _ _ => Journaled.effect

/-! ## Sending -/

def isPartition : EntryPayload → Bool
  | .fault (.partition _ _ _) => true
  | _ => false

/-- What a relation has to allow for every send to keep to it. -/
structure Allows (env : Environment) (task : Nat) (relation : World → World → Prop) : Prop where
  idle : ∀ {before after : World}, Action.Same World.standing before after →
    after.net.partitions = before.net.partitions → after.journal = before.journal →
    after.journalError = before.journalError → relation before after
  noted : ∀ world fault, relation world (world.recordJournalError fault)
  appends : ∀ kind parents payload, isPartition payload = false →
    (append env task kind parents payload).Relates relation
  loses : ∀ sendId target messageId, (journalNetLoss env task sendId target messageId).Relates relation

theorem effect_allows : Allows env task (Effect env) where
  idle standing _ := .of_eq standing
  noted world fault := (recordJournalError_journaled world fault).effect
  appends kind parents payload _ := append_effect env task kind parents payload
  loses _ _ _ := relates_get.bind fun _ => appendFault_effect env task _ _

section Allows

variable {env task} {relation : World → World → Prop}

theorem Allows.drawNet (allows : Allows env task relation) : (drawNet env).Relates relation :=
  fun _ => allows.idle rfl rfl rfl rfl

theorem Allows.drawFs (allows : Allows env task relation) : (drawFs env).Relates relation :=
  fun _ => allows.idle rfl rfl rfl rfl

theorem Allows.markFaultApplied (allows : Allows env task relation) (id : EntryHash) :
    (Action.modify (·.markFaultApplied id) : Action World JournalError Unit).Relates relation := by
  refine relates_modify fun world => ?_
  unfold World.markFaultApplied
  split <;> exact allows.idle rfl rfl rfl rfl

theorem partitions_trySend (message : Message) :
    (SimNet.trySend message).Relates (Action.Same SimNet.partitions) := by
  refine relates_get.bind fun net => ?_
  split
  · exact relates_pure _
  · exact (relates_ofExcept _).bind fun _ => Action.Relates.bind (fun _ => rfl) fun _ => relates_pure _

theorem partitions_trySendViaLink {σ : Type} (draw : UInt64 → σ → UInt64 × σ) (message : Message)
    (now baseDelay : UInt64) :
    (SimNet.trySendViaLink draw message now baseDelay).Relates (Action.Same fun state => state.1.partitions) := by
  have drawn (bound : UInt64) : (SimNet.drawn draw bound).Relates (Action.Same fun state => state.1.partitions) :=
    fun _ => rfl
  refine Action.Relates.bind relates_get fun (net, _) => ?_
  dsimp only
  split
  · exact relates_pure _
  · refine Action.Relates.bind (relates_ofExcept _) fun _ => Action.Relates.bind ?_ fun _ =>
      Action.Relates.bind ?_ fun lost => ?_
    · unfold SimNet.drawJitter
      split
      · exact drawn _
      · exact relates_pure _
    · unfold SimNet.drawLoss
      split
      · exact (drawn _).bind fun _ => relates_pure _
      · exact relates_pure _
    · split
      · exact relates_pure _
      · exact Action.Relates.bind (fun _ => rfl) fun _ => relates_pure _

variable [Std.Refl relation] [IsTrans World relation]

theorem relates_chance {draw : Action World JournalError UInt64} (probability : Probability)
    (draws : draw.Relates relation) : (chance draw probability).Relates relation := by
  unfold chance
  split
  · exact draws.bind fun _ => relates_pure _
  · exact relates_pure _

variable (allows : Allows env task relation)

include allows

theorem Allows.appendRecorded (kind : EntryKind) (parents : List EntryHash) (payload : EntryPayload)
    (other : isPartition payload = false) : (appendRecorded env task kind parents payload).Relates relation :=
  (Relates.recorded (allows.appends kind parents payload other) allows.noted).bind fun _ => relates_pure _

theorem Allows.swarmSendPolicy (sendId : EntryHash) (messageId : MessageId) :
    (swarmSendPolicy env task sendId messageId).Relates relation := by
  refine (relates_chance _ allows.drawNet).bind fun dropped => ?_
  split
  · exact (allows.appendRecorded _ _ _ rfl).bind fun _ => relates_pure _
  · refine Action.Relates.bind ?_ fun delayed => ?_
    · unfold swarmDelays
      split
      · exact relates_chance _ allows.drawNet
      · exact relates_pure _
    · split
      · refine Action.Relates.bind ?_ fun _ => relates_pure _
        exact allows.drawNet.bind fun _ => relates_pure _
      · exact relates_pure _

theorem Allows.injectSendFault (sendId : EntryHash) (messageId : MessageId) :
    (injectSendFault env task sendId messageId).Relates relation := by
  unfold Boundary.injectSendFault
  split
  · exact (allows.markFaultApplied _).bind fun _ =>
      (allows.appendRecorded _ _ _ rfl).bind fun _ => relates_pure _
  · exact (allows.markFaultApplied _).bind fun _ => relates_pure _
  · exact relates_pure _

theorem Allows.transmitOnce (message : Message) (now totalDelay : UInt64) :
    (transmitOnce env message now totalDelay).Relates relation := by
  refine relates_get.bind fun world => ?_
  split
  · exact fun world => allows.idle rfl (partitions_trySendViaLink _ message now totalDelay (world.net, _)) rfl rfl
  · exact fun world => allows.idle rfl (partitions_trySend _ world.net) rfl rfl

theorem Allows.journalFate (sendId : EntryHash) (target : Nat) (messageId : MessageId) (outcome : SendOutcome) :
    (journalFate env task sendId target messageId outcome).Relates relation := by
  unfold Boundary.journalFate
  split
  · exact relates_pure _
  · exact (allows.loses _ _ _).bind fun _ => relates_pure _
  · refine Action.Relates.bind (relates_get.bind fun _ => ?_) fun _ => relates_pure _
    split <;> exact allows.appendRecorded _ _ _ rfl

theorem Allows.transmit (message : Message) (now totalDelay : UInt64) :
    (transmit env task message now totalDelay).Relates relation := by
  have fate := allows.journalFate message.sendId message.target message.messageId
  refine (allows.transmitOnce message now totalDelay).bind fun first => ?_
  split
  · split
    · exact (allows.markFaultApplied _).bind fun _ => (allows.appendRecorded _ _ _ rfl).bind fun _ =>
        (allows.transmitOnce message now totalDelay).bind fun _ =>
          (fate _).bind fun _ => (fate _).bind fun _ => relates_pure _
    · exact fate _
  · exact fate _

theorem Allows.dispatch (message : Message) (now baseDelay : UInt64) :
    (dispatch env task message now baseDelay).Relates relation := by
  have swarmed (ticks : UInt64) :
      (dispatch.swarmed env task message now baseDelay ticks).Relates relation := by
    refine (allows.swarmSendPolicy _ _).bind fun policy => ?_
    split
    · exact relates_pure _
    · exact allows.transmit message now _
    · exact allows.transmit message now _
  unfold Boundary.dispatch
  split
  · exact (allows.appendRecorded _ _ _ rfl).bind fun _ => relates_pure _
  · refine (allows.injectSendFault _ _).bind fun injection => ?_
    split
    · exact relates_pure _
    · exact swarmed 0
    · exact swarmed _

theorem Allows.sendBytesInner (target : Nat) (content : Bytes) (baseDelay : UInt64) :
    (sendBytesInner env task target content baseDelay).Relates relation := by
  refine relates_get.bind fun world => ?_
  refine Action.Relates.bind (fun _ => allows.idle rfl rfl rfl rfl) fun messageId => ?_
  split
  · exact Action.Relates.bind (relates_modify fun world => allows.noted world _) fun _ => relates_pure _
  · refine (Relates.recorded (allows.appends _ _ _ rfl) allows.noted).bind fun sent => ?_
    split
    · exact relates_pure _
    · exact allows.dispatch _ _ _

end Allows

/-! ## Receiving and storage -/

theorem recvAtEffective_effect (now : UInt64) : (recvAtEffective env task now).Relates (Effect env) := by
  intro world
  unfold recvAtEffective
  split <;> exact .of_eq rfl rfl rfl

theorem recvNow_effect : (recvNow env task).Relates (Effect env) := by
  refine relates_get.bind fun world => ?_
  refine (recvAtEffective_effect env task _).bind fun received => ?_
  split
  · exact relates_pure _
  · refine Action.Relates.bind ?_ fun _ => relates_pure _
    exact (appendRecorded_journaled env task _ _ _).mono fun _ _ => Journaled.effect

theorem setRegister_effect (value : UInt64) : (setRegister task value).Relates (Effect env) :=
  relates_modify fun world => .of_eq (world.standing_updateTask fun _ => rfl) rfl rfl

theorem storage_effect {α : Type} {action : Action (Journal × SimFs) JournalError α}
    (grows : action.Relates (SimFs.Grows env.blake3)) : (storage action).Relates (Effect env) :=
  fun world => ⟨rfl, grows (world.journal, world.fs), id⟩

theorem noteStored_effect (kind : EntryKind) (id : Option EntryHash) :
    (noteStored env task kind id).Relates (Effect env) :=
  Action.Relates.bind (relates_modify fun _ => .of_eq rfl rfl rfl) fun _ =>
    (notifyEntry_journaled env _ kind task id).mono fun _ _ => Journaled.effect

theorem fsCrashed_effect : (fsCrashed env).Relates (Effect env) :=
  relates_modify fun _ => .of_eq rfl rfl rfl

theorem applyCrash_effect (label : String) (operation : CrashOperation) :
    (applyCrash env label operation).Relates (Effect env) := by
  intro world
  unfold applyCrash
  split <;> exact .of_eq rfl rfl rfl

theorem journalCrash_effect (operation : CrashOperation) :
    (journalCrash env task operation).Relates (Effect env) :=
  (append_effect env task _ _ _).bind fun _ => relates_pure _

theorem injectWriteFault_effect (writeId : EntryHash) (path : String) :
    (injectWriteFault env task writeId path).Relates (Effect env) := by
  refine (relates_ofExcept _).bind fun operation => ?_
  split
  · exact ((effect_allows env task).markFaultApplied _).bind fun _ => (fsCrashed_effect env).bind fun _ =>
      journalCrash_effect env task _
  · exact (relates_ofExcept _).bind fun _ => ((effect_allows env task).markFaultApplied _).bind fun _ =>
      (applyCrash_effect env _ _).bind fun _ => journalCrash_effect env task _
  · exact ((effect_allows env task).markFaultApplied _).bind fun _ => (relates_ofExcept _).bind fun _ =>
      (applyCrash_effect env _ _).bind fun _ => journalCrash_effect env task _
  · exact relates_pure _

theorem maybeCrashOnWrite_effect (path : String) (writeId : EntryHash) :
    (maybeCrashOnWrite env task path writeId).Relates (Effect env) := by
  refine (relates_chance _ (effect_allows env task).drawFs).bind fun crashes => ?_
  split
  · refine (effect_allows env task).drawFs.bind fun choice => relates_get.bind fun world => ?_
    split
    · exact relates_pure _
    · refine Action.Relates.bind (relates_modify fun _ => .of_eq rfl rfl rfl) fun _ => ?_
      refine (recorded_effect env (applyCrash_effect env _ _)).bind fun applied => ?_
      split
      · exact relates_pure _
      · exact journalCrash_effect env task _
  · exact relates_pure _

theorem fsWrite_effect (path : String) (value : UInt64) : (fsWrite env task path value).Relates (Effect env) :=
  (storage_effect env (SimFs.write_grows _ path value)).bind fun _ =>
    (noteStored_effect env task _ _).bind fun _ =>
    (injectWriteFault_effect env task _ path).bind fun _ =>
      (maybeCrashOnWrite_effect env task path _).bind fun _ => relates_pure _

theorem fsFsync_effect : (fsFsync env task).Relates (Effect env) :=
  (storage_effect env (SimFs.fsync_grows _).mapError).bind fun _ => (noteStored_effect env task _ _).bind fun _ =>
    relates_pure _

theorem fsRead_effect (path : String) : (fsRead env task path).Relates (Effect env) :=
  (storage_effect env (SimFs.read_grows _ path)).bind fun _ => relates_get.bind fun _ =>
    (noteStored_effect env task _ _).bind fun _ => relates_pure _

theorem fsCrash_effect : (fsCrash env task).Relates (Effect env) :=
  (appendFault_effect env task _ _).bind fun _ => fsCrashed_effect env

end Boundary

end Ldgr.Sim
