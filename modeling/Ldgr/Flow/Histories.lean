import Ldgr.Flow.WorkflowProperties

/-! Histories of a workflow: its calls in any order, with what completed steps are worth to later
resumes. -/

namespace Ldgr.Flow

open Base Format Relation

inductive FlowCall (σ : Type) where
  | stepBegin (stepName : String)
  | stepEnd (stepName : String) (beginHash : EntryHash) (resultValue : UInt64)
  | recover
  /-- A resume with a plan attached to the workflow just before. -/
  | resume (plan : WorkflowPlan) (exec : String → Action σ FlowError UInt64)
  /-- Somebody else appends to the journal. -/
  | foreign (kind : EntryKind) (actor : ActorId) (observed : List EntryHash) (payload : EntryPayload)

variable {σ : Type}

def Live.withPlan (live : Live σ) (plan : WorkflowPlan) : Live σ :=
  { live with workflow := { live.workflow with plan := some plan } }

section Calls

variable (blake3 : Bytes → EntryHash) (replaced : Bytes → String)

def FlowCall.perform (shared : Bool) (live : Live σ) : FlowCall σ → Live σ
  | .stepBegin stepName => (Flow.stepBegin blake3 shared stepName live).2
  | .stepEnd stepName beginHash resultValue =>
    (Flow.stepEnd blake3 shared stepName beginHash resultValue live).2
  | .recover =>
    { live with workflow := recoverFromJournal replaced live.workflow.actor live.journal }
  | .resume plan exec => (Flow.resume blake3 replaced shared exec (live.withPlan plan)).2
  | .foreign kind actor observed payload =>
    (appendAs blake3 shared kind observed payload actor live).2

/-- An end comes right after the begin it is meant for; a resume finds at most one step in progress
that it has to run, begun by the newest entry of the actor. -/
def FlowCall.InOrder (live : Live σ) : FlowCall σ → Prop
  | .stepEnd stepName beginHash _ =>
    live.journal.headForActor live.workflow.actor = some beginHash ∧
      (scanStepEvidence replaced live.journal live.workflow.actor).begins.lookup stepName = some beginHash
  | .resume plan _ =>
    Orderly (scanStepEvidence replaced live.journal live.workflow.actor)
      (live.journal.headForActor live.workflow.actor) plan.steps
  | .foreign _ actor _ _ => actor ≠ live.workflow.actor
  | _ => True

/-- One call, after which no two entries share an id. -/
def Step (allows : Live σ → FlowCall σ → Prop) (before after : Live σ) : Prop :=
  ∃ call shared, allows before call ∧ after = FlowCall.perform blake3 replaced shared before call ∧
    after.journal.ids.Nodup

/-- The call completes the step: an accepted end of its latest begin, or a resume that reports it. -/
def FlowCall.Completes (shared : Bool) (live : Live σ) (name : String) (value : UInt64) : FlowCall σ → Prop
  | .stepEnd stepName beginHash resultValue =>
    stepName = name ∧ resultValue = value ∧
      (scanStepEvidence replaced live.journal live.workflow.actor).begins.lookup name = some beginHash ∧
      ∃ hash, (Flow.stepEnd blake3 shared stepName beginHash resultValue live).1 = .ok hash
  | .resume plan exec =>
    ∃ outcomes, (Flow.resume blake3 replaced shared exec (live.withPlan plan)).1 = .ok outcomes ∧
      ∃ outcome ∈ outcomes, outcome.name = name ∧ outcome.result = value
  | _ => False

/-- The begins of a step in the journal. -/
def begunIn (journal : Journal) (actor : ActorId) (name : String) : List EntryHash :=
  (journal.entries.filter fun entry => beginOf replaced actor entry = some name).map (·.id)

/-- Whatever resume runs next skips the step, with the value, and does not run its effect. -/
def Skips (live : Live σ) (name : String) (value : UInt64) : Prop :=
  ∀ (plan : WorkflowPlan) (shared : Bool) (exec other : String → Action σ FlowError UInt64),
    name ∈ plan.steps → (∀ step ≠ name, exec step = other step) →
      Flow.resume blake3 replaced shared exec (live.withPlan plan) =
          Flow.resume blake3 replaced shared other (live.withPlan plan) ∧
        ∀ outcomes, (Flow.resume blake3 replaced shared exec (live.withPlan plan)).1 = .ok outcomes →
            outcomes.map (·.name) = plan.steps ∧
              ∀ outcome ∈ outcomes, outcome.name = name → outcome = ⟨name, .skipped, value⟩

end Calls

variable {blake3 : Bytes → EntryHash} {replaced : Bytes → String} {live : Live σ}
  {history : List Entry}

theorem scan_eq (represents : live.journal.Represents history) (distinct : live.journal.ids.Nodup)
    (actor : ActorId) :
    scanStepEvidence replaced live.journal actor = .ofEntries replaced actor history := by
  rw [scanStepEvidence, represents.entries_of_nodup distinct]

theorem recover_eq (represents : live.journal.Represents history)
    (distinct : live.journal.ids.Nodup) (actor : ActorId) :
    (recoverFromJournal replaced actor live.journal).completedSteps =
      completedOf replaced actor history := by
  rw [recoverFromJournal, scan_eq represents distinct, represents.entries_of_nodup distinct]
  rfl

/-! ## Skipping -/

section Skipping

variable {shared : Bool} {evidence : StepEvidence} {name : String} {value : UInt64}

variable {exec : String → Action σ FlowError UInt64} {after : Live σ}

theorem completeStep_ok {status : ResumeStatus} {beginHash : EntryHash} {outcome : StepOutcome}
    (completed : completeStep blake3 shared exec status name beginHash live = (.ok outcome, after)) :
    outcome.name = name := by
  obtain ⟨value, between, _, rest⟩ := Action.bind_eq_ok.mp completed
  obtain ⟨hash, final, _, last⟩ := Action.bind_eq_ok.mp rest
  cases last
  rfl

theorem resumeStep_ok {outcome : StepOutcome}
    (resumed : resumeStep blake3 shared exec evidence name live = (.ok outcome, after)) :
    outcome.name = name ∧
      ∀ value, classify name evidence = .skipped value → outcome = ⟨name, .skipped, value⟩ := by
  rw [resumeStep] at resumed
  cases prior : classify name evidence with
  | skipped result =>
    rw [prior] at resumed
    cases resumed
    refine ⟨rfl, ?_⟩
    rintro value ⟨⟩
    rfl
  | inProgress begun =>
    rw [prior] at resumed
    exact ⟨completeStep_ok resumed, by simp⟩
  | pending =>
    rw [prior] at resumed
    obtain ⟨hash, between, _, rest⟩ := Action.bind_eq_ok.mp resumed
    exact ⟨completeStep_ok rest, by simp⟩

theorem resumeSteps_ok {names : List String} {outcomes : List StepOutcome}
    (resumed : resumeSteps blake3 shared exec evidence names live = (.ok outcomes, after)) :
    outcomes.map (·.name) = names ∧ ∀ outcome ∈ outcomes, ∀ value,
      classify outcome.name evidence = .skipped value → outcome = ⟨outcome.name, .skipped, value⟩ := by
  induction names generalizing live outcomes with
  | nil =>
    cases resumed
    exact ⟨rfl, List.forall_mem_nil _⟩
  | cons name names ih =>
    obtain ⟨outcome, between, first, rest⟩ := Action.bind_eq_ok.mp resumed
    obtain ⟨more, proceeded, rfl⟩ := Action.bind_pure_eq_ok.mp rest
    obtain ⟨rfl, skips⟩ := resumeStep_ok first
    obtain ⟨named, remaining⟩ := ih proceeded
    exact ⟨congrArg _ named, List.forall_mem_cons.mpr ⟨skips, remaining⟩⟩

theorem resumeSteps_congr {exec other : String → Action σ FlowError UInt64} {names : List String}
    (skipped : classify name evidence = .skipped value)
    (same : ∀ step ≠ name, exec step = other step) :
    resumeSteps blake3 shared exec evidence names =
      resumeSteps blake3 shared other evidence names := by
  have step (planned : String) : resumeStep blake3 shared exec evidence planned =
      resumeStep blake3 shared other evidence planned := by
    by_cases this : planned = name
    · rw [resumeStep, resumeStep, this, skipped]
    · simp only [resumeStep, completeStep, runEffect, same planned this]
  induction names with
  | nil => rfl
  | cons planned names ih => rw [resumeSteps, resumeSteps, step, ih]

theorem skips_of_classify
    (skipped : classify name (scanStepEvidence replaced live.journal live.workflow.actor) =
      .skipped value) : Skips blake3 replaced live name value := by
  intro plan shared exec other planned same
  refine ⟨congrFun (resumeSteps_congr skipped same) _, fun outcomes succeeded => ?_⟩
  obtain ⟨named, reported⟩ := resumeSteps_ok (Prod.ext succeeded rfl)
  refine ⟨named, ?_⟩
  rintro outcome member rfl
  exact reported outcome member value skipped

end Skipping

/-! ## Calls -/

theorem perform_advances (shared : Bool) (call : FlowCall σ) (live : Live σ) :
    Advances blake3 live (call.perform blake3 replaced shared live) := by
  cases call with
  | stepBegin stepName => exact stepBegin_advances stepName live
  | stepEnd stepName beginHash resultValue => exact stepEnd_advances _ _ _ live
  | recover => exact ⟨rfl, Std.Refl.refl _⟩
  | resume plan exec =>
    have advances : Advances blake3 (live.withPlan plan)
        (Flow.resume blake3 replaced shared exec (live.withPlan plan)).2 :=
      resume_advances exec (live.withPlan plan)
    exact ⟨advances.actor, advances.writes⟩
  | foreign kind actor observed payload => exact appendAs_advances kind observed payload actor live

variable {after : Live σ}

theorem run_advances {allows : Live σ → FlowCall σ → Prop}
    (run : ReflTransGen (Step blake3 replaced allows) live after) : Advances blake3 live after := by
  induction run with
  | refl => exact Std.Refl.refl _
  | tail _ step ih =>
    obtain ⟨call, shared, _, rfl, _⟩ := step
    exact IsTrans.trans _ _ _ ih (perform_advances shared call _)

theorem run_nodup {allows : Live σ → FlowCall σ → Prop}
    (run : ReflTransGen (Step blake3 replaced allows) live after)
    (distinct : live.journal.ids.Nodup) : after.journal.ids.Nodup := by
  induction run with
  | refl => exact distinct
  | tail _ step _ =>
    obtain ⟨_, _, _, _, distinct⟩ := step
    exact distinct

/-- What a call in order leaves: the workflow and the journal agree, and what it completed is found
completed. -/
structure Accomplishes (blake3 : Bytes → EntryHash) (replaced : Bytes → String) (shared : Bool)
    (call : FlowCall σ) (live : Live σ) (history : List Entry) : Prop where
  matched : Matches blake3 replaced (call.perform blake3 replaced shared live) history
  completed : ∀ name value, call.Completes blake3 replaced shared live name value →
    classify name (.ofEntries replaced live.workflow.actor history) = .skipped value

section InOrder

variable {shared : Bool} (matched : Matches blake3 replaced live history)
include matched

theorem stepBegin_accomplishes {stepName : String}
    (after : (FlowCall.perform blake3 replaced shared live (.stepBegin stepName)).journal.ids.Nodup) :
    ∃ history, Accomplishes blake3 replaced shared (.stepBegin stepName) live history := by
  cases begun : stepBegin blake3 shared stepName live with
  | mk outcome final =>
    have performed : FlowCall.perform blake3 replaced shared live (.stepBegin stepName) = final :=
      congrArg Prod.snd begun
    rw [performed] at after
    cases outcome with
    | error fault =>
      obtain rfl := stepBegin_error begun
      exact ⟨history, by rwa [performed], nofun⟩
    | ok hash =>
      obtain ⟨entry, _, _, _, _, matched⟩ := matched.begin begun (Std.Refl.refl _) after
      exact ⟨history ++ [entry], performed ▸ matched, nofun⟩

theorem stepEnd_accomplishes {stepName : String} {beginHash : EntryHash} {resultValue : UInt64}
    (distinct : live.journal.ids.Nodup)
    (inOrder : (FlowCall.stepEnd stepName beginHash resultValue).InOrder replaced live)
    (after : (FlowCall.perform blake3 replaced shared live
      (.stepEnd stepName beginHash resultValue)).journal.ids.Nodup) :
    ∃ history, Accomplishes blake3 replaced shared (.stepEnd stepName beginHash resultValue) live
      history := by
  obtain ⟨newest, begun⟩ := inOrder
  rw [matched.represents.heads] at newest
  obtain ⟨last, found, rfl⟩ := Option.map_eq_some_iff.mp newest
  rw [scan_eq matched.represents distinct] at begun
  cases ended : stepEnd blake3 shared stepName last.id resultValue live with
  | mk outcome final =>
    have performed : FlowCall.perform blake3 replaced shared live
        (.stepEnd stepName last.id resultValue) = final := congrArg Prod.snd ended
    rw [performed] at after
    cases outcome with
    | error fault =>
      obtain rfl := stepEnd_error ended
      refine ⟨history, by rwa [performed], ?_⟩
      rintro name value ⟨_, _, _, hash, accepted⟩
      rw [ended] at accepted
      cases accepted
    | ok hash =>
      obtain ⟨entry, _, _, matched, skipped⟩ := matched.end found begun ended after
      refine ⟨history ++ [entry], performed ▸ matched, ?_⟩
      rintro name value ⟨rfl, rfl, _⟩
      exact skipped

theorem resume_accomplishes {plan : WorkflowPlan} {exec : String → Action σ FlowError UInt64}
    (distinct : live.journal.ids.Nodup) (inOrder : (FlowCall.resume plan exec).InOrder replaced live)
    (after : (FlowCall.perform blake3 replaced shared live (.resume plan exec)).journal.ids.Nodup) :
    ∃ history, Accomplishes blake3 replaced shared (.resume plan exec) live history := by
  have planned : Matches blake3 replaced (live.withPlan plan) history :=
    ⟨matched.built, matched.represents, matched.completed⟩
  rw [FlowCall.InOrder, scan_eq matched.represents distinct, matched.represents.heads] at inOrder
  obtain ⟨added, continues, completed⟩ := resumeSteps_continues planned plan.distinct
    (fun name _ => congrArg (classify name) (scan_eq matched.represents distinct live.workflow.actor)) inOrder
    (Prod.ext rfl rfl : resumeSteps blake3 shared exec
      (scanStepEvidence replaced live.journal live.workflow.actor) plan.steps (live.withPlan plan) =
        (_, _)) after
  refine ⟨history ++ added, continues.matched, ?_⟩
  rintro _ _ ⟨outcomes, succeeded, outcome, member, rfl, rfl⟩
  exact completed outcomes succeeded outcome member

theorem foreign_accomplishes {kind : EntryKind} {actor : ActorId} {observed : List EntryHash}
    {payload : EntryPayload} (other : actor ≠ live.workflow.actor)
    (after : (FlowCall.perform blake3 replaced shared live
      (.foreign kind actor observed payload)).journal.ids.Nodup) :
    ∃ history, Accomplishes blake3 replaced shared (.foreign kind actor observed payload) live
      history := by
  cases appended : appendAs blake3 shared kind observed payload actor live with
  | mk outcome final =>
    have performed : FlowCall.perform blake3 replaced shared live
        (.foreign kind actor observed payload) = final := congrArg Prod.snd appended
    rw [performed] at after
    cases outcome with
    | error fault =>
      obtain rfl := appendAs_error appended
      exact ⟨history, by rwa [performed], nofun⟩
    | ok hash =>
      obtain ⟨entry, _, _, acts, _, gains, framed⟩ := appendAs_ok appended
      obtain ⟨built, represents⟩ := gains history matched.built matched.represents
      refine ⟨history ++ [entry], performed ▸ ⟨built, represents, ?_⟩, nofun⟩
      have unended : completedBy (.ofEntries replaced live.workflow.actor history)
          live.workflow.actor entry = none := by
        rw [completedBy, endOf, if_pos (acts ▸ other)]
        rfl
      have workflow : final.workflow = live.workflow := by rw [framed]
      rw [workflow, completedOf_append_singleton built (represents.ids ▸ after), unended, matched.completed]
      exact (List.append_nil _).symm

theorem recover_accomplishes (distinct : live.journal.ids.Nodup) :
    Accomplishes blake3 replaced shared .recover live history :=
  ⟨⟨matched.built, matched.represents, recover_eq matched.represents distinct _⟩, nofun⟩

theorem perform_accomplishes {call : FlowCall σ} (distinct : live.journal.ids.Nodup)
    (inOrder : call.InOrder replaced live)
    (after : (call.perform blake3 replaced shared live).journal.ids.Nodup) :
    ∃ history, Accomplishes blake3 replaced shared call live history := by
  cases call with
  | stepBegin stepName => exact stepBegin_accomplishes matched after
  | stepEnd stepName beginHash resultValue => exact stepEnd_accomplishes matched distinct inOrder after
  | recover => exact ⟨history, recover_accomplishes matched distinct⟩
  | resume plan exec => exact resume_accomplishes matched distinct inOrder after
  | foreign kind actor observed payload => exact foreign_accomplishes matched inOrder after

end InOrder

/-! ## Histories -/

theorem run_matches (matched : Matches blake3 replaced live history) (distinct : live.journal.ids.Nodup)
    (run : ReflTransGen (Step blake3 replaced fun live call => call.InOrder replaced live) live after) :
    ∃ history, Matches blake3 replaced after history := by
  induction run with
  | refl => exact ⟨history, matched⟩
  | tail before step ih =>
    obtain ⟨history, matched⟩ := ih
    obtain ⟨call, shared, inOrder, rfl, after⟩ := step
    obtain ⟨history, accomplished⟩ :=
      perform_accomplishes matched (run_nodup before distinct) inOrder after
    exact ⟨history, accomplished.matched⟩

theorem classify_of_advances {later : Live σ} {name : String} {value : UInt64}
    (matched : Matches blake3 replaced live history) (advances : Advances blake3 live later)
    (distinct : later.journal.ids.Nodup)
    (unbegun : begunIn replaced later.journal live.workflow.actor name =
      begunIn replaced live.journal live.workflow.actor name)
    (skipped : classify name (.ofEntries replaced live.workflow.actor history) = .skipped value) :
    classify name (scanStepEvidence replaced later.journal later.workflow.actor) = .skipped value := by
  have earlier := nodup_of_writes matched.built matched.represents advances.writes distinct
  obtain ⟨added, gains⟩ := advances.writes
  obtain ⟨built, represents⟩ := gains history matched.built matched.represents
  rw [begunIn, begunIn, represents.entries_of_nodup distinct,
    matched.represents.entries_of_nodup earlier, List.filter_append, List.map_append,
    List.append_right_eq_self, List.map_eq_nil_iff, List.filter_eq_nil_iff] at unbegun
  rw [advances.actor, scan_eq represents distinct]
  refine classify_append built (represents.ids ▸ distinct) (fun entry member begins => ?_) skipped
  exact unbegun entry member (decide_eq_true begins)

/-- As long as ends come right after their begins, recovery finds the steps the workflow knows, and a
completed step is skipped with its result by every later resume, whatever comes in between, until it
begins again. -/
theorem inOrder_stays_completed {start : Live σ} (reached : Journal.Reached blake3 start.journal)
    (distinct : start.journal.ids.Nodup)
    (known : start.workflow.completedSteps =
      (recoverFromJournal replaced start.workflow.actor start.journal).completedSteps)
    (run : ReflTransGen (Step blake3 replaced fun live call => call.InOrder replaced live) start live) :
    (recoverFromJournal replaced live.workflow.actor live.journal).completedSteps =
        live.workflow.completedSteps ∧
      ∀ (call : FlowCall σ) (shared : Bool) (name : String) (value : UInt64) (later : Live σ),
        call.InOrder replaced live → call.Completes blake3 replaced shared live name value →
        (call.perform blake3 replaced shared live).journal.ids.Nodup →
        ReflTransGen (Step blake3 replaced fun _ _ => True) (call.perform blake3 replaced shared live) later →
        begunIn replaced later.journal live.workflow.actor name =
          begunIn replaced (call.perform blake3 replaced shared live).journal live.workflow.actor name →
        Skips blake3 replaced later name value := by
  obtain ⟨first, built, represents⟩ := reached.built
  rw [recover_eq represents distinct] at known
  obtain ⟨history, matched⟩ := run_matches ⟨built, represents, known⟩ distinct run
  have distinct := run_nodup run distinct
  refine ⟨(recover_eq matched.represents distinct _).trans matched.completed.symm, ?_⟩
  intro call shared name value later inOrder completes after onward unbegun
  obtain ⟨history, accomplished⟩ := perform_accomplishes matched distinct inOrder after
  have performed : Advances blake3 live (call.perform blake3 replaced shared live) :=
    perform_advances shared call live
  have completed := accomplished.completed name value completes
  rw [← performed.actor] at completed unbegun
  exact skips_of_classify (classify_of_advances accomplished.matched (run_advances onward)
    (run_nodup onward after) unbegun completed)

def freshLive : Live Unit :=
  { workflow := .new ⟨1⟩, journal := .new, outside := () }

def acceptedId (result : Except JournalError EntryHash) : EntryHash :=
  result.toOption.getD ⟨⟨List.replicate 32 0, length_zeros⟩⟩

def shipBegin : EntryHash :=
  acceptedId (stepBegin checksum false "ship" freshLive).1

def shipBegun : Live Unit :=
  (stepBegin checksum false "ship" freshLive).2

theorem shipped_at_once : Skips checksum (fun _ => "")
    (FlowCall.perform checksum (fun _ => "") false shipBegun (.stepEnd "ship" shipBegin 7)) "ship" 7 := by
  have begun : shipBegun.journal.headForActor ⟨1⟩ = some shipBegin := by decide +kernel
  have latest : (scanStepEvidence (fun _ => "") shipBegun.journal ⟨1⟩).begins.lookup "ship" =
      some shipBegin := by decide +kernel
  have accepted : okWith (fun _ => true) (stepEnd checksum false "ship" shipBegin 7 shipBegun).1 =
      true := by decide +kernel
  obtain ⟨hash, accepted, _⟩ := okWith_eq_true.mp accepted
  have run : ReflTransGen (Step checksum (fun _ => "") fun live call =>
      FlowCall.InOrder (fun _ => "") live call) freshLive shipBegun :=
    .single ⟨.stepBegin "ship", false, trivial, rfl, by decide +kernel⟩
  have distinct : freshLive.journal.ids.Nodup := List.nodup_nil
  exact (inOrder_stays_completed .new distinct rfl run).2 (.stepEnd "ship" shipBegin 7) false
    "ship" 7 _ ⟨begun, latest⟩ ⟨rfl, rfl, latest, hash, accepted⟩ (by decide +kernel) .refl rfl

/-! ## Overlapping steps -/

/-- Two steps are begun, and the first of them is ended. -/
def shipped : Live Unit :=
  (stepEnd checksum false "ship" shipBegin 7 (stepBegin checksum false "bill" shipBegun).2).2

def shipPlan : WorkflowPlan :=
  ⟨["ship"], List.nodup_singleton _⟩

theorem overlap_reruns : okWith (fun _ => true)
        (stepEnd checksum false "ship" shipBegin 7 (stepBegin checksum false "bill" shipBegun).2).1 =
      true ∧
    okWith (· = [⟨"ship", .rerun, 9⟩])
        (resume checksum (fun _ => "") false (fun _ => pure 9) (shipped.withPlan shipPlan)).1 = true ∧
    begunIn (fun _ => "") shipped.journal ⟨1⟩ "ship" = [shipBegin] ∧ shipped.journal.ids.Nodup ∧
    shipped.workflow.completedSteps = [("ship", 7)] ∧
    (recoverFromJournal (fun _ => "") ⟨1⟩ shipped.journal).completedSteps = [("bill", 7)] := by
  decide +kernel

end Ldgr.Flow
