import Ldgr.Journal.Causality

/-! The audit of a journal: sequences, parents and clocks are derived again from the entries. It finds
nothing wrong with those of what appends have built. -/

namespace Ldgr

open Base Format List

inductive MonitorIssue where
  | nonMonotonicSequence (actor : ActorId) (expected actual : UInt64)
  | missingParent (entryId parent : EntryHash)
  | parentKindMismatch (entryId : EntryHash) (expectedKind actualKind : String)
  | vectorClockMismatch (entryId : EntryHash) (expected actual : VectorClock)

namespace MonitorIssue

def tag : MonitorIssue → Nat
  | nonMonotonicSequence .. => 0
  | missingParent .. => 1
  | parentKindMismatch .. => 2
  | vectorClockMismatch .. => 3

def cmpComponents : List (ActorId × UInt64) → List (ActorId × UInt64) → Ordering
  | [], [] => .eq
  | [], _ :: _ => .lt
  | _ :: _, [] => .gt
  | (actor, value) :: left, (otherActor, otherValue) :: right =>
    (compare actor otherActor).then ((compare value otherValue).then (cmpComponents left right))

def cmpClock (left right : VectorClock) : Ordering :=
  cmpComponents left.components.entries right.components.entries

def cmpIssue (left right : MonitorIssue) : Ordering :=
  (compare left.tag right.tag).then <|
    match left, right with
    | nonMonotonicSequence actor expected actual, nonMonotonicSequence otherActor otherExpected otherActual =>
        (compare actor otherActor).then
          ((compare expected otherExpected).then (compare actual otherActual))
    | missingParent entryId parent, missingParent otherEntry otherParent =>
      (compare entryId otherEntry).then (compare parent otherParent)
    | parentKindMismatch entryId expectedKind actualKind,
      parentKindMismatch otherEntry otherExpected otherActual =>
        (compare entryId otherEntry).then
          ((compare expectedKind otherExpected).then (compare actualKind otherActual))
    | vectorClockMismatch entryId expected actual, vectorClockMismatch otherEntry otherExpected otherActual =>
        (compare entryId otherEntry).then
          ((cmpClock expected otherExpected).then (cmpClock actual otherActual))
    | _, _ => .eq

end MonitorIssue

namespace JournalCorrectnessMonitor

def kindName : EntryKind → String
  | .spawn => "Spawn"
  | .block => "Block"
  | .wake => "Wake"
  | .timerSet => "TimerSet"
  | .timerFire => "TimerFire"
  | .clockRead => "ClockRead"
  | .send => "Send"
  | .recv => "Recv"
  | .fsWrite => "FsWrite"
  | .fsFsync => "FsFsync"
  | .fsRead => "FsRead"
  | .rngDraw => "RngDraw"
  | .outcome => "Outcome"
  | .assert => "Assert"
  | .snapshot => "Snapshot"
  | .epoch => "Epoch"
  | .inputStep => "InputStep"
  | .capRequest => "CapRequest"
  | .capGrant => "CapGrant"
  | .capInvoke => "CapInvoke"
  | .capRevoke => "CapRevoke"
  | .fault => "Fault"
  | .stepBegin => "StepBegin"
  | .stepEnd => "StepEnd"

/-! ## Parent kinds -/

/-- The parent an observed-value entry needs. -/
def expectedParent : EntryKind → Option String
  | .recv => some "Send"
  | .fsRead => some "FsWrite"
  | .wake => some "enabler"
  | _ => none

def isEnabler (kind : EntryKind) : Bool :=
  kind = .send ∨ kind = .recv ∨ kind = .fsWrite ∨ kind = .fsFsync ∨ kind = .timerFire

def parentMatches (expected : String) (kind : EntryKind) : Bool :=
  if expected = "Send" then kind = .send
  else if expected = "FsWrite" then kind = .fsWrite
  else isEnabler kind

/-- The kind of the last parent looked at when none of them fits. -/
def unmatchedKind (journal : Journal) (expected : String) : String → List EntryHash → Option String
  | actualKind, [] => some actualKind
  | actualKind, parent :: parents =>
    match journal.get parent with
    | none => unmatchedKind journal expected actualKind parents
    | some parentEntry =>
      if parentMatches expected parentEntry.data.kind then none
      else unmatchedKind journal expected (kindName parentEntry.data.kind) parents

def checkParentKind (entry : Entry) (journal : Journal) : List MonitorIssue :=
  match expectedParent entry.data.kind with
  | none => []
  | some expected =>
    match unmatchedKind journal expected "none" entry.data.parents with
    | none => []
    | some actualKind => [.parentKindMismatch entry.id expected actualKind]

/-! ## Audit -/

structure Recomputed where
  clock : VectorClock
  parentsResolvable : Bool
  issues : List MonitorIssue

def mergeParent (entry : Entry) (journal : Journal) (done : Recomputed) (parent : EntryHash) : Recomputed :=
  match journal.get parent with
  | some parentEntry => { done with clock := done.clock.merge parentEntry.vectorClock }
  | none =>
    { done with
      parentsResolvable := false
      issues := done.issues ++ [.missingParent entry.id parent] }

def recompute (entry : Entry) (journal : Journal) : Recomputed :=
  entry.data.parents.foldl (mergeParent entry journal) ⟨.new, true, []⟩

def checkClock (entry : Entry) (done : Recomputed) : List MonitorIssue :=
  if done.parentsResolvable then
    let expectedClock := done.clock.incremented entry.data.actor
    if expectedClock ≠ entry.vectorClock then
      [.vectorClockMismatch entry.id expectedClock entry.vectorClock]
    else []
  else []

def checkSequence (entry : Entry) (expected : UInt64) : List MonitorIssue :=
  if entry.data.sequence ≠ expected then
    [.nonMonotonicSequence entry.data.actor expected entry.data.sequence]
  else []

/-- The next sequence of each actor, and the issues so far. -/
abbrev AuditState := (AList fun _ : ActorId => UInt64) × List MonitorIssue

def auditEntry (journal : Journal) (state : AuditState) (entry : Entry) : AuditState :=
  let expected := (state.1.lookup entry.data.actor).getD 0
  let done := recompute entry journal
  (state.1.insert entry.data.actor (expected + 1),
    state.2 ++ checkSequence entry expected ++ done.issues ++ checkParentKind entry journal ++
      checkClock entry done)

def audit (journal : Journal) : List MonitorIssue :=
  (journal.entries.foldl (auditEntry journal) (∅, [])).2.mergeSort fun left right =>
    left.cmpIssue right ≠ .gt

end JournalCorrectnessMonitor

theorem Journal.mergeParents_congr {journal other : Journal} {parents : List EntryHash}
    (same : ∀ id ∈ parents, journal.get id = other.get id) :
    journal.mergeParents parents = other.mergeParents parents := by
  unfold mergeParents
  generalize VectorClock.new = start
  induction parents generalizing start with
  | nil => rfl
  | cons parent parents ih =>
    obtain ⟨first, rest⟩ := forall_mem_cons.mp same
    have found : journal.getParent parent = other.getParent parent := by
      rw [getParent, getParent, first]
    rw [foldlM_cons, foldlM_cons, found]
    cases other.getParent parent with
    | error fault => rfl
    | ok entry => exact ih rest _

namespace JournalCorrectnessMonitor

variable {journal : Journal}

theorem foldl_mergeParent (entry : Entry) {parents : List EntryHash} {start clock : VectorClock}
    (merged : parents.foldlM
      (fun clock parent => (journal.getParent parent).map (clock.merge ·.vectorClock)) start = .ok clock) :
    parents.foldl (mergeParent entry journal) ⟨start, true, []⟩ = ⟨clock, true, []⟩ := by
  induction parents generalizing start with
  | nil =>
    cases merged
    rfl
  | cons parent parents ih =>
    rw [foldlM_cons] at merged
    cases found : journal.get parent with
    | none =>
      rw [Journal.getParent, found] at merged
      cases merged
    | some parentEntry =>
      rw [Journal.getParent, found] at merged
      rw [foldl_cons, mergeParent, found]
      exact ih merged

/-- What one entry of a well-kept journal shows: it is next in the sequence of its actor, and its
clock follows from those of its parents. -/
structure Fits (journal : Journal) (before : List Entry) (entry : Entry) : Prop where
  sequence : entry.data.sequence.toNat = History.countOf before entry.data.actor
  clock : ∃ clock, journal.mergeParents entry.data.parents = .ok clock ∧
    entry.vectorClock = clock.incremented entry.data.actor

/-- The checks of a fitting entry can only fail on the kinds of its parents. -/
theorem Fits.issues {before : List Entry} {entry : Entry} (fits : Fits journal before entry) {expected : UInt64}
    (counted : expected.toNat = History.countOf before entry.data.actor) :
    checkSequence entry expected = [] ∧ (recompute entry journal).issues = [] ∧
      checkClock entry (recompute entry journal) = [] := by
  obtain ⟨clock, merged, incremented⟩ := fits.clock
  have recomputed : recompute entry journal = ⟨clock, true, []⟩ := foldl_mergeParent entry merged
  have sequence : entry.data.sequence = expected :=
    UInt64.toNat_inj.mp (fits.sequence.trans counted.symm)
  refine ⟨if_neg (not_not.mpr sequence), by rw [recomputed], ?_⟩
  rw [recomputed, checkClock, if_pos rfl]
  exact if_neg (not_not.mpr incremented.symm)

theorem checkParentKind_mismatch (entry : Entry) (journal : Journal) : ∀ issue ∈ checkParentKind entry journal,
      ∃ expected actual, issue = .parentKindMismatch entry.id expected actual := by
  unfold checkParentKind
  split
  · simp
  · split
    · simp
    · exact forall_mem_singleton.mpr ⟨_, _, rfl⟩

/-- The audit after a number of entries: it expects what the entries count, and has complained about
parent kinds only. -/
structure Audited (before : List Entry) (state : AuditState) : Prop where
  counted : ∀ actor, ((state.1.lookup actor).getD 0).toNat = History.countOf before actor
  issues : ∀ issue ∈ state.2, ∃ entryId expected actual, issue = .parentKindMismatch entryId expected actual

theorem Audited.auditEntry {before : List Entry} {state : AuditState}
    (audited : Audited before state) {entry : Entry} (fits : Fits journal before entry)
    (small : before.length + 1 < 2 ^ 64) :
    Audited (before ++ [entry]) (auditEntry journal state entry) := by
  have expected := audited.counted entry.data.actor
  obtain ⟨sequence, parents, clock⟩ := fits.issues expected
  refine ⟨fun actor => ?_, fun issue member => ?_⟩
  · rw [History.countOf_append_singleton, JournalCorrectnessMonitor.auditEntry]
    by_cases own : entry.data.actor = actor
    · have bounded := History.countOf_le_length before actor
      rw [own] at expected
      rw [if_pos own, own, AList.lookup_insert, Option.getD_some, UInt64.toNat_add, expected]
      exact Nat.mod_eq_of_lt (by show _ + 1 < 2 ^ 64; omega)
    · rw [if_neg own, AList.lookup_insert_ne (Ne.symm own), Nat.add_zero]
      exact audited.counted actor
  · simp only [JournalCorrectnessMonitor.auditEntry, sequence, parents, clock, append_nil] at member
    obtain earlier | kind := mem_append.mp member
    · exact audited.issues issue earlier
    · exact ⟨entry.id, checkParentKind_mismatch entry journal issue kind⟩

theorem foldl_auditEntry {before entries : List Entry} {state : AuditState} (audited : Audited before state)
    (fits : ∀ middle entry after, entries = middle ++ entry :: after →
      Fits journal (before ++ middle) entry) (small : (before ++ entries).length < 2 ^ 64) :
    Audited (before ++ entries) (entries.foldl (auditEntry journal) state) := by
  induction entries generalizing before state with
  | nil =>
    rw [append_nil]
    exact audited
  | cons entry entries ih =>
    rw [length_append, length_cons] at small
    have first := fits [] entry entries rfl
    rw [append_nil] at first
    have step := ih (audited.auditEntry first (by omega)) (fun middle other after split => by
        rw [append_assoc]
        exact fits (entry :: middle) other after (congrArg (entry :: ·) split))
      (by simp only [length_append, length_singleton]; omega)
    rwa [append_assoc] at step

theorem audit_of_fits (small : journal.entries.length < 2 ^ 64)
    (fits : ∀ before entry after, journal.entries = before ++ entry :: after →
      Fits journal before entry) : ∀ issue ∈ audit journal,
      ∃ entryId expected actual, issue = .parentKindMismatch entryId expected actual := by
  have start : Audited [] (∅, []) := ⟨fun _ => rfl, forall_mem_nil _⟩
  have done := foldl_auditEntry start (fun middle => fits middle) small
  intro issue member
  exact done.issues issue (mem_mergeSort.mp member)

end JournalCorrectnessMonitor

end Ldgr
