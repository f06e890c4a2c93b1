import Ldgr.Explorer.HittingSet
import Ldgr.Journal.DagProperties

/-! What the caches of a solver remember, and for which calls that is the right answer. -/

namespace Ldgr.Explorer

open Base Format HittingSetSolver

inductive Request where
  | solve (journal : Journal) (verdict : Verdict)
  | solveWithSupport (journal : Journal) (verdict : Verdict) (support : SupportExpr)

namespace Request

def perform (blake3 : Bytes → EntryHash) : Request → Action HittingSetSolver SolverError (List FaultHypothesis)
  | solve journal verdict => HittingSetSolver.solve blake3 journal verdict
  | solveWithSupport journal verdict support =>
    HittingSetSolver.solveWithSupport blake3 journal verdict support

def verdict : Request → Verdict
  | solve _ verdict | solveWithSupport _ verdict _ => verdict

def walks : Request → Bool
  | solve .. => true
  | solveWithSupport .. => false

def paths (config : SolverConfig) : Request → List (List FaultableEvent)
  | solve journal verdict =>
    ((collectLineage journal verdict.witnesses config).2.map
      (faultableEvents journal)).filter (!·.isEmpty)
  | solveWithSupport journal _ support => supportPaths journal support

def derived (config : SolverConfig) (request : Request) : Except SolverError (List FaultHypothesis) :=
  match request with
  | solve journal _ => derive journal (request.paths config)
      (strongPaths (request.paths config) config.maxHorizon) config.maxHorizon
  | solveWithSupport journal _ support => derive journal (request.paths config)
      support.isStrong config.maxHorizon

def answer (config : SolverConfig) (request : Request) : Except SolverError (List FaultHypothesis) :=
  match request with
  | solve journal verdict =>
    if verdict.witnesses.isEmpty && journal.entries.isEmpty then .ok []
    else if (request.paths config).isEmpty then
      if verdict.witnesses.isEmpty then .ok [] else .error .emptyProvenance
    else request.derived config
  | solveWithSupport journal verdict _ =>
    if verdict.witnesses.isEmpty && journal.entries.isEmpty then .ok []
    else if (request.paths config).isEmpty then .error .emptyProvenance
    else request.derived config

theorem derived_congr {config other : SolverConfig} (same : config.maxHorizon = other.maxHorizon)
    (request : Request) : request.derived config = request.derived other := by
  cases request with
  | solve journal verdict =>
    simp only [derived, paths, collectLineage_congr same, same]
  | solveWithSupport journal verdict support => simp only [derived, paths, same]

end Request

structure SolverCall where
  config : SolverConfig
  request : Request

namespace SolverCall

def key (blake3 : Bytes → EntryHash) (call : SolverCall) : EntryHash :=
  HittingSetSolver.key blake3 call.config call.request.verdict.witnesses

/-- Both calls put the same question. -/
def Agrees (earlier later : SolverCall) : Prop :=
  earlier.request = later.request ∧ earlier.config.maxHorizon = later.config.maxHorizon

/-- Calls that share a key of the caches, or the index, put the same question. -/
structure Compatible (blake3 : Bytes → EntryHash) (earlier later : SolverCall) : Prop where
  cached : earlier.key blake3 = later.key blake3 → earlier.Agrees later
  indexed : earlier.request.walks = true → later.request.walks = true →
    fingerprint blake3 earlier.config .builtin = fingerprint blake3 later.config .builtin →
    earlier.Agrees later

end SolverCall

namespace HittingSetSolver

variable {blake3 : Bytes → EntryHash} {past : List SolverCall} {solver : HittingSetSolver}

/-- Everything the solver holds was computed for some earlier call. -/
structure Remembers (blake3 : Bytes → EntryHash) (past : List SolverCall) (solver : HittingSetSolver) :
    Prop where
  hypotheses : ∀ key hypotheses, solver.hypothesisCache.lookup key = some hypotheses →
    ∃ call ∈ past, call.key blake3 = key ∧ call.request.derived call.config = .ok hypotheses
  lineage : ∀ index, solver.lineage = some index → ∃ config journal verdict,
    ⟨config, .solve journal verdict⟩ ∈ past ∧ index.Indexes blake3 journal verdict.witnesses config

theorem remembers_withConfig (config : SolverConfig) : Remembers blake3 [] (withConfig config) where
  hypotheses _ _ found := nomatch found
  lineage _ found := nomatch found

theorem Remembers.more (remembers : Remembers blake3 past solver) (call : SolverCall) :
    Remembers blake3 (call :: past) solver where
  hypotheses key hypotheses found := by
    obtain ⟨earlier, member, kept⟩ := remembers.hypotheses key hypotheses found
    exact ⟨earlier, List.mem_cons_of_mem _ member, kept⟩
  lineage index found := by
    obtain ⟨config, journal, verdict, member, indexes⟩ := remembers.lineage index found
    exact ⟨config, journal, verdict, List.mem_cons_of_mem _ member, indexes⟩

theorem solveClauses_eq {call : SolverCall} (remembers : Remembers blake3 (call :: past) solver)
    (compatible : ∀ earlier ∈ past, earlier.Compatible blake3 call) (clauses : List WeightedClause) :
    ∃ after, solveClauses (call.key blake3) clauses (call.request.derived call.config) solver =
        (call.request.derived call.config, after) ∧ Remembers blake3 (call :: past) after := by
  rw [solveClauses, Action.get_bind]
  cases cached : solver.cached (call.key blake3) clauses with
  | some hypotheses =>
    refine ⟨solver, ?_, remembers⟩
    obtain ⟨earlier, member, sameKey, derived⟩ := remembers.hypotheses _ _
      (Option.filter_eq_some_iff.mp cached).1
    have same : call.request.derived call.config = .ok hypotheses := by
      rcases List.mem_cons.mp member with rfl | before
      · exact derived
      · obtain ⟨sameRequest, sameHorizon⟩ := (compatible earlier before).cached sameKey
        rw [← sameRequest, ← Request.derived_congr sameHorizon, derived]
    rw [same]
    rfl
  | none =>
    simp only [Action.modify_bind]
    cases derived : call.request.derived call.config with
    | error fault =>
      exact ⟨_, Action.ofExcept_error_bind .., ⟨remembers.hypotheses, remembers.lineage⟩⟩
    | ok hypotheses =>
      refine ⟨_, Action.ofExcept_ok_bind .., ⟨fun key found lookup => ?_, remembers.lineage⟩⟩
      have looked : (solver.hypothesisCache.insert (call.key blake3) hypotheses).lookup key =
          some found := lookup
      rw [SortedMap.lookup_insert] at looked
      split_ifs at looked with same
      · cases looked
        exact ⟨call, List.mem_cons_self, same.symm, derived⟩
      · exact remembers.hypotheses key found looked

theorem refreshLineage_eq {journal : Journal} {verdict : Verdict} (remembers : Remembers blake3 past solver)
    (compatible : ∀ earlier ∈ past, earlier.Compatible blake3 ⟨solver.config, .solve journal verdict⟩) :
    ∃ index, refreshLineage blake3 journal verdict.witnesses solver =
        (.ok index, { solver with lineage := some index }) ∧
      index.Indexes blake3 journal verdict.witnesses solver.config := by
  have built : (LineageIndex.build blake3 journal verdict.witnesses solver.config .builtin).Indexes
      blake3 journal verdict.witnesses solver.config := LineageIndex.indexes_build
  refine ⟨_, rfl, ?_⟩
  cases held : solver.lineage with
  | none => exact built.refresh
  | some index =>
    obtain ⟨config, earlierJournal, earlierVerdict, member, indexes⟩ := remembers.lineage index held
    show (index.refresh blake3 journal verdict.witnesses solver.config .builtin).Indexes _ _ _ _
    by_cases same : fingerprint blake3 solver.config .builtin = index.configFingerprint
    · rw [indexes.configFingerprint] at same
      obtain ⟨sameRequest, sameHorizon⟩ := (compatible _ member).indexed rfl rfl same.symm
      cases sameRequest
      have current : index.Indexes blake3 journal verdict.witnesses solver.config :=
        { closure := fun id => by
            rw [← collectLineage_congr sameHorizon]
            exact indexes.closure id
          paths := by rw [← collectLineage_congr sameHorizon, indexes.paths]
          configFingerprint := by rw [indexes.configFingerprint, same] }
      exact current.refresh
    · rw [LineageIndex.refresh, if_pos same]
      exact built

theorem perform_eq {request : Request} (remembers : Remembers blake3 past solver)
    (compatible : ∀ earlier ∈ past, earlier.Compatible blake3 ⟨solver.config, request⟩) :
    ∃ after, request.perform blake3 solver = (request.answer solver.config, after) ∧
      Remembers blake3 (⟨solver.config, request⟩ :: past) after := by
  cases request with
  | solve journal verdict =>
    rw [Request.perform, solve, Request.answer]
    by_cases nothing : (verdict.witnesses.isEmpty && journal.entries.isEmpty) = true
    · rw [if_pos nothing, if_pos nothing]
      exact ⟨solver, rfl, remembers.more _⟩
    · obtain ⟨index, refreshed, indexes⟩ := refreshLineage_eq remembers compatible
      have indexed : Remembers blake3 (⟨solver.config, .solve journal verdict⟩ :: past)
          { solver with lineage := some index } :=
        { hypotheses := (remembers.more _).hypotheses
          lineage := fun _ found => Option.some.inj found ▸
            ⟨solver.config, journal, verdict, List.mem_cons_self, indexes⟩ }
      have paths : (index.paths.map (faultableEvents journal)).filter (!·.isEmpty) =
          (Request.solve journal verdict).paths solver.config := by
        rw [indexes.paths]
        rfl
      rw [if_neg nothing, if_neg nothing, Action.get_bind, Action.bind_of_ok refreshed, paths]
      split_ifs
      · exact ⟨_, rfl, indexed⟩
      · exact ⟨_, rfl, indexed⟩
      · exact solveClauses_eq indexed compatible _
  | solveWithSupport journal verdict support =>
    rw [Request.perform, solveWithSupport, Request.answer]
    by_cases nothing : (verdict.witnesses.isEmpty && journal.entries.isEmpty) = true
    · rw [if_pos nothing, if_pos nothing]
      exact ⟨solver, rfl, remembers.more _⟩
    · have paths : supportPaths journal support =
          (Request.solveWithSupport journal verdict support).paths solver.config := rfl
      rw [if_neg nothing, if_neg nothing, Action.get_bind, paths]
      split_ifs
      · exact ⟨_, rfl, remembers.more _⟩
      · exact solveClauses_eq (remembers.more _) compatible _

/-! ## Histories -/

/-- The calls made on a solver so far, latest first; none of them disagrees with an earlier one whose
cached results it may meet. -/
inductive Used (blake3 : Bytes → EntryHash) : List SolverCall → HittingSetSolver → Prop where
  | fresh (config : SolverConfig) : Used blake3 [] (withConfig config)
  | configured {past : List SolverCall} {solver : HittingSetSolver} (used : Used blake3 past solver)
      (config : SolverConfig) : Used blake3 past (solver.setConfig config)
  | called {past : List SolverCall} {solver : HittingSetSolver} {request : Request}
      (used : Used blake3 past solver)
      (compatible : ∀ earlier ∈ past, earlier.Compatible blake3 ⟨solver.config, request⟩) :
      Used blake3 (⟨solver.config, request⟩ :: past) (request.perform blake3 solver).2

theorem Used.remembers (used : Used blake3 past solver) : Remembers blake3 past solver := by
  induction used with
  | fresh config => exact remembers_withConfig config
  | configured _ config ih => exact ⟨ih.hypotheses, ih.lineage⟩
  | called _ compatible ih =>
    obtain ⟨after, performed, remembers⟩ := perform_eq ih compatible
    rw [performed]
    exact remembers

/-- Such a solver answers the next call as a fresh one with its configuration does. -/
theorem Used.answers_afresh (used : Used blake3 past solver) {request : Request}
    (compatible : ∀ earlier ∈ past, earlier.Compatible blake3 ⟨solver.config, request⟩) :
    (request.perform blake3 solver).1 = (request.perform blake3 (withConfig solver.config)).1 := by
  obtain ⟨_, performed, _⟩ := perform_eq used.remembers compatible
  obtain ⟨_, afresh, _⟩ := perform_eq (remembers_withConfig solver.config)
    (List.forall_mem_nil fun earlier : SolverCall => earlier.Compatible blake3 ⟨solver.config, request⟩)
  rw [performed, afresh]
  rfl

def twoMessages : Journal :=
  let send (actor : UInt32) (journal : Journal) : Journal :=
    (Journal.append checksum false .send ⟨actor⟩ [] (.send
      { messageId := ⟨⟨actor⟩, 0⟩, source := ⟨actor⟩, target := ⟨actor⟩, originalContent := [] })
      journal).2
  send 2 (send 1 Journal.new)

def messageVerdict (index : Nat) : Verdict :=
  .fail (twoMessages.ids.drop index |>.take 1) "lost"

theorem twoMessages_again :
    let request := Request.solve twoMessages (messageVerdict 0)
    (request.perform checksum (request.perform checksum new).2).1 =
      (request.perform checksum (withConfig { maxHorizon := some 64 })).1 := by
  intro request
  have used : Used checksum [⟨{ maxHorizon := some 64 }, request⟩] (request.perform checksum new).2 :=
    .called (.fresh _) (List.forall_mem_nil _)
  have unchanged : (request.perform checksum new).2.config = { maxHorizon := some 64 } := by
    decide +kernel
  have answers := @Used.answers_afresh _ _ _ used request fun earlier member => by
    cases List.mem_singleton.mp member
    exact ⟨fun _ => ⟨rfl, by rw [unchanged]⟩, fun _ _ _ => ⟨rfl, by rw [unchanged]⟩⟩
  rw [unchanged] at answers
  exact answers

/-- A second question about the same journal is answered with the first one's paths mixed in. -/
theorem twoMessages_mixed :
    let events (result : Except SolverError (List FaultHypothesis)) := result.map (List.map (·.events))
    let second := Request.solve twoMessages (messageVerdict 1)
    let used := ((Request.solve twoMessages (messageVerdict 0)).perform checksum new).2
    used.config = new.config ∧ events (second.perform checksum new).1 = .ok [(messageVerdict 1).witnesses] ∧
      events (second.perform checksum used).1 = .ok [sortedSet twoMessages.ids] := by
  decide +kernel

end HittingSetSolver

end Ldgr.Explorer
