import Ldgr.Journal.Dag

/-! Durable workflows: each step journals its begin before the effect and its end after it. -/

namespace Ldgr.Flow

open Base Format Cbor

inductive FlowError where
  | journal (fault : JournalError)
  | duplicateStep (name : String)
  | noPlan

inductive ResumeStatus where
  | skipped
  /-- Only an unpaired begin existed; the effect ran again. -/
  | rerun
  | executed
  deriving DecidableEq

structure StepOutcome where
  name : String
  status : ResumeStatus
  result : UInt64
  deriving DecidableEq

/-- Ordered step names, each of them once. -/
structure WorkflowPlan where
  steps : List String
  distinct : steps.Nodup

def firstDuplicate : List String → List String → Option String
  | _, [] => none
  | seen, name :: steps => if name ∈ seen then some name else firstDuplicate (name :: seen) steps

theorem nodup_of_firstDuplicate {seen steps : List String} (none : firstDuplicate seen steps = none)
    (distinct : seen.Nodup) : (seen.reverse ++ steps).Nodup := by
  induction steps generalizing seen with
  | nil => simpa using distinct
  | cons name steps ih =>
    rw [firstDuplicate] at none
    split_ifs at none with known
    have rest := ih none (List.nodup_cons.mpr ⟨known, distinct⟩)
    rwa [List.reverse_cons, List.append_assoc] at rest

def WorkflowPlan.plan (steps : List String) : Except FlowError WorkflowPlan :=
  match found : firstDuplicate [] steps with
  | some name => .error (.duplicateStep name)
  | none => .ok ⟨steps, nodup_of_firstDuplicate found List.nodup_nil⟩

structure WorkflowExecution where
  actor : ActorId
  /-- The number of begins, paired or not. -/
  stepCounter : UInt64
  completedSteps : List (String × UInt64)
  plan : Option WorkflowPlan

def WorkflowExecution.new (actor : ActorId) : WorkflowExecution where
  actor := actor
  stepCounter := 0
  completedSteps := []
  plan := none

/-! ## Evidence -/

/-- What the journal tells about the steps of an actor. -/
structure StepEvidence where
  begins : AList fun _ : String => EntryHash
  beginNames : AList fun _ : EntryHash => String
  /-- Recorded results, under the begins they are paired with. -/
  ends : AList fun _ : EntryHash => UInt64

inductive StepPrior where
  | pending
  | inProgress (beginHash : EntryHash)
  | skipped (result : UInt64)
  deriving DecidableEq

def classify (name : String) (evidence : StepEvidence) : StepPrior :=
  match evidence.begins.lookup name with
  | some beginHash =>
    match evidence.ends.lookup beginHash with
    | some result => .skipped result
    | none => .inProgress beginHash
  | none => .pending

variable (replaced : Bytes → String)

/-- Text with everything that is not UTF-8 replaced. -/
def fromUtf8Lossy (content : Bytes) : String :=
  (String.fromUTF8? ⟨content.toArray⟩).getD (replaced content)

/-- The name a begin of the actor carries. -/
def beginOf (actor : ActorId) (entry : Entry) : Option String :=
  if entry.data.actor ≠ actor then none
  else
    match entry.data.kind, entry.data.payload with
    | .stepBegin, .stepBegin begun => some (fromUtf8Lossy replaced begun.name)
    | _, _ => none

/-- The result that an end of the actor completes a step with, and the first of its parents. -/
def endOf (actor : ActorId) (entry : Entry) : Option (EntryHash × UInt64) :=
  if entry.data.actor ≠ actor then none
  else
    match entry.data.kind, entry.data.payload with
    | .stepEnd, .stepEnd (.completed _ (.unsigned value)) =>
      entry.data.parents.head?.map (·, value)
    | _, _ => none

def StepEvidence.note (actor : ActorId) (evidence : StepEvidence) (entry : Entry) : StepEvidence :=
  match beginOf replaced actor entry with
  | some name =>
    { evidence with
      begins := evidence.begins.insert name entry.id
      beginNames := evidence.beginNames.insert entry.id name }
  | none =>
    match endOf actor entry with
    | some (parent, value) => { evidence with ends := evidence.ends.insert parent value }
    | none => evidence

def StepEvidence.ofEntries (actor : ActorId) (entries : List Entry) : StepEvidence :=
  entries.foldl (StepEvidence.note replaced actor) ⟨∅, ∅, ∅⟩

def scanStepEvidence (journal : Journal) (actor : ActorId) : StepEvidence :=
  .ofEntries replaced actor journal.entries

/-- The step an entry completes, if the first parent of an end is a begin. -/
def completedBy (evidence : StepEvidence) (actor : ActorId) (entry : Entry) : Option (String × UInt64) :=
  (endOf actor entry).bind fun (parent, value) => (evidence.beginNames.lookup parent).map (·, value)

def recoverFromJournal (actor : ActorId) (journal : Journal) : WorkflowExecution :=
  let evidence := scanStepEvidence replaced journal actor
  { actor
    stepCounter := UInt64.ofNat evidence.beginNames.entries.length
    completedSteps := journal.entries.filterMap (completedBy evidence actor)
    plan := none }

/-! ## Steps -/

/-- A workflow and the journal it writes to, with what its effects can touch outside. -/
structure Live (σ : Type) where
  workflow : WorkflowExecution
  journal : Journal
  outside : σ

section Steps

variable {σ : Type} (blake3 : Bytes → EntryHash) (replaced : Bytes → String) (shared : Bool)

def appendAs (kind : EntryKind) (observed : List EntryHash) (payload : EntryPayload)
    (actor : ActorId) : Action (Live σ) JournalError EntryHash :=
  (Journal.append blake3 shared kind actor observed payload).zoom Live.journal
    fun live journal => { live with journal }

def stepBegin (stepName : String) : Action (Live σ) JournalError EntryHash := do
  let live ← Action.get
  let hash ← appendAs blake3 shared .stepBegin []
    (.stepBegin ⟨live.workflow.stepCounter, textBytes stepName, none⟩) live.workflow.actor
  Action.modify fun live =>
    { live with workflow := { live.workflow with stepCounter := live.workflow.stepCounter + 1 } }
  pure hash

def stepEnd (stepName : String) (beginHash : EntryHash) (resultValue : UInt64) :
    Action (Live σ) JournalError EntryHash := do
  let live ← Action.get
  let endHash ← appendAs blake3 shared .stepEnd [beginHash]
    (.stepEnd (.completed live.workflow.stepCounter (.unsigned resultValue))) live.workflow.actor
  Action.modify fun live =>
    { live with
      workflow := { live.workflow with
        completedSteps := live.workflow.completedSteps ++ [(stepName, resultValue)] } }
  pure endHash

/-! ## Resume -/

variable (exec : String → Action σ FlowError UInt64)

/-- An effect run by the caller's closure. -/
def runEffect (name : String) : Action (Live σ) FlowError UInt64 :=
  (exec name).zoom Live.outside fun live outside => { live with outside }

/-- The effect of a begun step, then its end. -/
def completeStep (status : ResumeStatus) (name : String)
    (beginHash : EntryHash) : Action (Live σ) FlowError StepOutcome := do
  let value ← runEffect exec name
  let _ ← (stepEnd blake3 shared name beginHash value).mapError .journal
  pure ⟨name, status, value⟩

def resumeStep (evidence : StepEvidence) (name : String) : Action (Live σ) FlowError StepOutcome :=
  match classify name evidence with
  | .skipped result => pure ⟨name, .skipped, result⟩
  | .inProgress beginHash => completeStep blake3 shared exec .rerun name beginHash
  | .pending => do
      let beginHash ← (stepBegin blake3 shared name).mapError .journal
      completeStep blake3 shared exec .executed name beginHash

def resumeSteps (exec : String → Action σ FlowError UInt64) (evidence : StepEvidence) :
    List String → Action (Live σ) FlowError (List StepOutcome)
  | [] => pure []
  | name :: steps => do
      let outcome ← resumeStep blake3 shared exec evidence name
      let outcomes ← resumeSteps exec evidence steps
      pure (outcome :: outcomes)

/-- The evidence is read once, before the first step. -/
def resume : Action (Live σ) FlowError (List StepOutcome) := do
  let live ← Action.get
  match live.workflow.plan with
  | none => Action.fail .noPlan
  | some plan =>
    resumeSteps blake3 shared exec (scanStepEvidence replaced live.journal live.workflow.actor) plan.steps

end Steps

end Ldgr.Flow
