import Ldgr.Explorer.Lineage
import Ldgr.Explorer.Oracle

/-! The exact hitting set solver: every minimal set of events that breaks all derivation paths, with
caches for the lineage, the clauses and the hypotheses. -/

namespace Ldgr.Explorer

open Base Format Action

structure FaultableEvent where
  event : EntryHash
  kind : EntryKind
  cost : UInt64

structure FaultHypothesis where
  events : List EntryHash
  totalCost : UInt64
  explanation : String
  deriving DecidableEq

structure WeightedClause where
  literals : List EntryHash
  weight : UInt64
  deriving DecidableEq

def eventFaultCost (journal : Journal) (id : EntryHash) : UInt64 :=
  match journal.get id with
  | none => 10
  | some entry =>
    match entry.data.kind with
    | .send | .recv => 2
    | .timerFire | .timerSet => 3
    | .fsRead | .fsWrite => 4
    | _ => 5

/-! ## Minimal hitting sets -/

def maxHittingSetPaths : Nat := 65536

def maxHittingSetCandidates : Nat := 65536

/-- Sets are ascending lists. A set goes in unless one that is kept lies within it, and takes the
place of those it lies within. -/
def keepMinimal (minimal : List (List EntryHash)) (set : List EntryHash) : List (List EntryHash) :=
  if minimal.any fun existing => existing.all (· ∈ set) then minimal
  else minimal.filter (fun existing => !set.all (· ∈ existing)) ++ [set]

def pruneSupersets (sets : List (List EntryHash)) : List (List EntryHash) :=
  (((sortDedup sets).insertionSort fun left right => left.length ≤ right.length).foldl keepMinimal
    []).insertionSort (· ≤ ·)

/-- A candidate that misses the path is extended by each of its events. -/
def expandCandidate (path : List EntryHash) (candidate : List EntryHash) : List (List EntryHash) :=
  if candidate.any (· ∈ path) then [candidate]
  else path.map fun event => candidate.orderedInsert (· ≤ ·) event

def hitPath (candidates : List (List EntryHash)) (path : List FaultableEvent) :
    Except SolverError (List (List EntryHash)) :=
  let next := candidates.flatMap (expandCandidate (sortedSet (path.map (·.event))))
  if maxHittingSetCandidates < next.length then
    .error (.budgetExhausted "hitting-set candidate sets exceed the budget")
  else .ok (pruneSupersets next)

def computeMinimalHittingSets (paths : List (List FaultableEvent)) :
    Except SolverError (List (List EntryHash)) :=
  if maxHittingSetPaths < paths.length then
    .error (.budgetExhausted "derivation paths exceed the hitting-set budget")
  else paths.foldlM hitPath [[]]

/-! ## Pruning -/

def compareHypotheses (left right : FaultHypothesis) : Ordering :=
  ((compare left.totalCost right.totalCost).then
    (compare left.events.length right.events.length)).then (compare left.events right.events)

/-- The two hypotheses differ in one event, and the two events are concurrent. -/
def swapsConcurrent (journal : Journal) (existing hypothesis : FaultHypothesis) : Bool :=
  existing.events.length == hypothesis.events.length &&
    match existing.events.filter (· ∉ hypothesis.events), hypothesis.events.filter (· ∉ existing.events) with
    | [left], [right] =>
      match journal.get left, journal.get right with
      | some before, some after => before.vectorClock.concurrentWith after.vectorClock
      | _, _ => false
    | _, _ => false

def pruneInto (journal : Journal) (pruned : List FaultHypothesis) (hypothesis : FaultHypothesis) :
    List FaultHypothesis :=
  if pruned.any (swapsConcurrent journal · hypothesis) || pruned.any (·.events = hypothesis.events) then pruned
  else pruned ++ [hypothesis]

def samcPrune (journal : Journal) (hypotheses : List FaultHypothesis) : List FaultHypothesis :=
  if hypotheses.length ≤ 1 then hypotheses
  else
    (hypotheses.insertionSort fun left right => (compareHypotheses left right).isLE).foldl
      (pruneInto journal) []

/-! ## Cache keys -/

variable (blake3 : Bytes → EntryHash)

def closureHash (sortedIds : List EntryHash) : EntryHash :=
  blake3 ((sortedIds.insertionSort (· ≤ ·)).flatMap hashBytes)

def computeKey (closureHash : EntryHash) (engineTag : UInt8) (config : SolverConfig) : EntryHash :=
  let horizon : Bytes := match config.maxHorizon with
    | some value => leBytes 8 value
    | none => [0xff, 0xff]
  blake3 (hashBytes closureHash ++ 0xfe :: horizon ++ 0xfd :: optionalBytes wordBytes config.oracleVersion ++
    0xfc :: optionalBytes wordBytes config.inputClass ++
    0xfb :: optionalBytes (leBytes 8) config.maxFaults ++ [0xfa, engineTag] ++
    0xf9 :: optionalBytes hashBytes config.runConfigHash ++
    0xf8 :: optionalBytes wordBytes config.supportVersion ++
    0xf7 :: optionalBytes hashBytes config.supportDigest)

/-! ## Solver -/

structure HittingSetSolver where
  cache : SortedMap EntryHash (List WeightedClause)
  hypothesisCache : SortedMap EntryHash (List FaultHypothesis)
  config : SolverConfig
  lineage : Option LineageIndex

namespace HittingSetSolver

def withConfig (config : SolverConfig) : HittingSetSolver :=
  { cache := SortedMap.empty, hypothesisCache := SortedMap.empty, config, lineage := none }

def new : HittingSetSolver :=
  withConfig { maxHorizon := some 64 }

def resolvedEngine : SolverEngine :=
  .builtin

def setConfig (config : SolverConfig) (solver : HittingSetSolver) : HittingSetSolver :=
  { solver with config }

/-- The key of the caches for a set of witnesses. -/
def key (config : SolverConfig) (witnesses : List EntryHash) : EntryHash :=
  computeKey blake3 (closureHash blake3 (witnesses.insertionSort (· ≤ ·))) engineTagBuiltin config

/-- The ids of a path that the journal has, with what it costs to fault them. -/
def faultableEvents (journal : Journal) (path : List EntryHash) : List FaultableEvent :=
  path.filterMap fun id => (journal.get id).map fun entry =>
    { event := id, kind := entry.data.kind, cost := eventFaultCost journal id }

def clausesOf (paths : List (List FaultableEvent)) : List WeightedClause :=
  paths.map fun path =>
    { literals := path.map (·.event), weight := ((path.map (·.cost)).min?).getD 1 }

/-- A cut of `faults` events; `strong` when nothing about its support is unknown. -/
def solveExplanation (strong : Bool) (faults paths : Nat) (horizon : Option Nat) : String :=
  let cut := "hitting set cut with " ++ toString faults ++ " fault(s) breaking " ++ toString paths ++
    " causal derivation path(s)"
  if strong then "Minimum " ++ cut
  else
    match horizon with
    | some level => "Bounded heuristic " ++ cut ++ " at horizon " ++ toString level
    | none => "Heuristic " ++ cut ++ " (unknown support)"

/-- The hypotheses a call computes when the caches do not have them, cheapest first. -/
def derive (journal : Journal) (paths : List (List FaultableEvent)) (strong : Bool)
    (horizon : Option Nat) : Except SolverError (List FaultHypothesis) := do
  let sets ← computeMinimalHittingSets paths
  let hypotheses := sets.map fun events =>
    { events
      totalCost := (events.map (eventFaultCost journal)).sum
      explanation := solveExplanation strong events.length paths.length horizon }
  pure (samcPrune journal (hypotheses.insertionSort fun left right =>
    left.totalCost < right.totalCost ∨
      (left.totalCost = right.totalCost ∧ left.events.length ≤ right.events.length)))

/-- Cached hypotheses count only while the cached clauses are the ones at hand. -/
def cached (key : EntryHash) (clauses : List WeightedClause) (solver : HittingSetSolver) :
    Option (List FaultHypothesis) :=
  (solver.hypothesisCache.lookup key).filter fun _ => solver.cache.lookup key = some clauses

/-- The part of a call that the caches take part in. The clauses are stored before the hypotheses are
derived, which may fail. -/
def solveClauses (key : EntryHash) (clauses : List WeightedClause)
    (derived : Except SolverError (List FaultHypothesis)) :
    Action HittingSetSolver SolverError (List FaultHypothesis) := do
  match (← get).cached key clauses with
  | some hypotheses => pure hypotheses
  | none =>
    modify fun solver => { solver with cache := solver.cache.insert key clauses }
    let hypotheses ← ofExcept derived
    modify fun solver =>
      { solver with hypothesisCache := solver.hypothesisCache.insert key hypotheses }
    pure hypotheses

def strongPaths (paths : List (List FaultableEvent)) (horizon : Option Nat) : Bool :=
  (supportFromPaths (paths.map fun path => path.map (·.event)) horizon.isSome).isStrong

/-- The index for these arguments: built when there is none, and refreshed in any case. -/
def refreshLineage (journal : Journal) (witnesses : List EntryHash) :
    Action HittingSetSolver SolverError LineageIndex := do
  let solver ← get
  let held := solver.lineage.getD (.build blake3 journal witnesses solver.config resolvedEngine)
  let index := held.refresh blake3 journal witnesses solver.config resolvedEngine
  modify fun solver => { solver with lineage := some index }
  pure index

def solve (journal : Journal) (verdict : Verdict) :
    Action HittingSetSolver SolverError (List FaultHypothesis) := do
  if verdict.witnesses.isEmpty && journal.entries.isEmpty then pure []
  else do
    let config := (← get).config
    let index ← refreshLineage blake3 journal verdict.witnesses
    let paths := (index.paths.map (faultableEvents journal)).filter (!·.isEmpty)
    if paths.isEmpty then
      if verdict.witnesses.isEmpty then pure [] else fail .emptyProvenance
    else
      solveClauses (key blake3 config verdict.witnesses) (clausesOf paths)
        (derive journal paths (strongPaths paths config.maxHorizon) config.maxHorizon)

/-- The paths of an explicit support: its clauses, as far as their ids are faultable entries. -/
def supportPaths (journal : Journal) (support : SupportExpr) : List (List FaultableEvent) :=
  (((hardClausesFromSupport support).map fun clause =>
    (clause.filter fun id => (journal.get id).any fun entry => isFaultable entry.data.kind).insertionSort
      (· ≤ ·)).map (faultableEvents journal)).filter (!·.isEmpty)

def solveWithSupport (journal : Journal) (verdict : Verdict)
    (support : SupportExpr) : Action HittingSetSolver SolverError (List FaultHypothesis) := do
  if verdict.witnesses.isEmpty && journal.entries.isEmpty then pure []
  else do
    let config := (← get).config
    let paths := supportPaths journal support
    if paths.isEmpty then fail .emptyProvenance
    else
      solveClauses (key blake3 config verdict.witnesses) (clausesOf paths)
        (derive journal paths support.isStrong config.maxHorizon)

end HittingSetSolver

end Ldgr.Explorer
