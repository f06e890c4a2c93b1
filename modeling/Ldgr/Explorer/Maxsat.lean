import Ldgr.Journal.Dag

/-! Weighted hitting set over hazard clauses: branch and bound with a greedy warm start. -/

namespace Ldgr.Explorer

open Base Format

inductive SolverError where
  | journal (fault : JournalError)
  /-- The hazard walk derived no hard clause, so no cut can be claimed. -/
  | emptyProvenance
  | budgetExhausted (message : String)
  | unsupported
  deriving DecidableEq

structure CardinalityBound where
  literals : List EntryHash
  maxTrue : Nat
  deriving DecidableEq

structure HazardEncoding where
  hard : List (List EntryHash)
  soft : List (List EntryHash × UInt64)
  cardinality : Option CardinalityBound
  deriving DecidableEq

structure LowerBoundProof where
  method : String
  unsatCoreCost : UInt64
  deriving DecidableEq

structure MaxSatSolution where
  cut : List EntryHash
  totalCost : UInt64
  lowerBoundProof : LowerBoundProof
  deriving DecidableEq

def lowerBoundMethod : String := "mcs-lower-bound-v1"

abbrev Weights := SortedMap EntryHash UInt64

/-! ## Lower bound -/

def clauseMinCost (clause : List EntryHash) (weights : Weights) : UInt64 :=
  (clause.filterMap weights.lookup).min?.getD 1

def compareClauses (weights : Weights) (left right : List EntryHash) : Ordering :=
  ((compare (clauseMinCost left weights) (clauseMinCost right weights)).then
    (compare left.length right.length)).then (compare left right)

/-- Adds up the cheapest literals of clauses that share none, cheap clauses first. -/
def disjointFrom (weights : Weights) : List (List EntryHash) → List EntryHash → UInt64 → UInt64
  | [], _, sum => sum
  | clause :: clauses, used, sum =>
    if clause.any (· ∈ used) then disjointFrom weights clauses used sum
    else disjointFrom weights clauses (clause ++ used) (saturatingAdd sum (clauseMinCost clause weights))

def disjointLower (hard : List (List EntryHash)) (weights : Weights) : UInt64 :=
  disjointFrom weights (hard.insertionSort fun left right => (compareClauses weights left right).isLE) [] 0

/-! ## Greedy incumbent -/

def weightOf (weights : Weights) (literal : EntryHash) : UInt64 :=
  max ((weights.lookup literal).getD 1) 1

/-- Every literal of the uncovered clauses with the number of clauses it would cover. -/
def coverage (uncovered : List (List EntryHash)) : List (EntryHash × Nat) :=
  ((uncovered.flatten.dedup).insertionSort (· ≤ ·)).map fun literal =>
    (literal, uncovered.countP (literal ∈ ·))

def compareCoverage (weights : Weights) (left right : EntryHash × Nat) : Ordering :=
  ((compare right.2 left.2).then
    (compare (weightOf weights left.1) (weightOf weights right.1))).then (compare left.1 right.1)

/-- The first least element, as `min_by` keeps it. -/
def minBy {α : Type} (order : α → α → Ordering) : List α → Option α
  | [] => none
  | first :: rest =>
    some (rest.foldl (fun least next => if order next least = .lt then next else least) first)

/-- The loop that covers the most clauses at each turn. Each turn covers one clause at least, so
the number of clauses is fuel enough. -/
def greedyFrom (weights : Weights) : Nat → List (List EntryHash) → Finset EntryHash → UInt64 →
    Option (Finset EntryHash × UInt64)
  | _, [], chosen, cost => some (chosen, cost)
  | 0, _ :: _, _, _ => none
  | fuel + 1, clause :: clauses, chosen, cost =>
    match minBy (compareCoverage weights) (coverage (clause :: clauses)) with
    | none => none
    | some (literal, _) =>
      greedyFrom weights fuel ((clause :: clauses).filter (literal ∉ ·)) (insert literal chosen)
        (saturatingAdd cost (weightOf weights literal))

def greedyIncumbent (hard : List (List EntryHash)) (weights : Weights) : Option (Finset EntryHash × UInt64) :=
  greedyFrom weights hard.length hard ∅ 0

/-! ## Search -/

structure SearchState where
  bestCut : Finset EntryHash
  bestCost : UInt64
  nodesVisited : UInt64

namespace SearchState

section Search

variable (weights : Weights) (cardinality : Option CardinalityBound) (maxNodes : UInt64)

/-- The checks at the start of every node; `body` is the rest of it. -/
def enter (cur : Finset EntryHash) (curCost : UInt64)
    (body : Action SearchState SolverError Unit) : Action SearchState SolverError Unit := do
  Action.modify fun state => { state with nodesVisited := saturatingAdd state.nodesVisited 1 }
  let state ← Action.get
  if maxNodes < state.nodesVisited then
    Action.fail (.budgetExhausted "branch-and-bound node budget")
  else if state.bestCost ≤ curCost then pure ()
  else if cardinality.any fun bound => bound.maxTrue < cur.card then pure ()
  else body

def record (cur : Finset EntryHash) (curCost : UInt64) : Action SearchState SolverError Unit :=
  Action.modify fun state =>
    if curCost < state.bestCost then { state with bestCost := curCost, bestCut := cur } else state

/-- Tries the literals of one uncovered clause, each as far as `visit` goes. -/
def branch (visit : Finset EntryHash → UInt64 → Action SearchState SolverError Unit)
    (cur : Finset EntryHash) (curCost : UInt64) :
    List (EntryHash × UInt64) → Action SearchState SolverError Unit
  | [] => pure ()
  | (literal, weight) :: literals => do
      let state ← Action.get
      if literal ∈ cur ∨ state.bestCost ≤ saturatingAdd curCost weight then
        branch visit cur curCost literals
      else do
        visit (insert literal cur) (saturatingAdd curCost weight)
        branch visit cur curCost literals

/-- The literals of a clause, cheapest first. -/
def literals (clause : List EntryHash) : List (EntryHash × UInt64) :=
  (clause.map fun literal => (literal, (weights.lookup literal).getD 1)).insertionSort
    fun left right => ((compare left.2 right.2).then (compare left.1 right.1)).isLE

/-- A node past its checks, over the clauses from its start index on. -/
def explore : List (List EntryHash) → Finset EntryHash → UInt64 → Action SearchState SolverError Unit
  | [], cur, curCost => record cur curCost
  | clause :: clauses, cur, curCost =>
    if clause.any (· ∈ cur) then explore clauses cur curCost
    else
      branch (fun cur curCost => enter cardinality maxNodes cur curCost (explore clauses cur curCost))
        cur curCost (literals weights clause)

def dfs (clauses : List (List EntryHash)) (cur : Finset EntryHash) (curCost : UInt64) :
    Action SearchState SolverError Unit :=
  enter cardinality maxNodes cur curCost (explore weights cardinality maxNodes clauses cur curCost)

end Search

def start (hard : List (List EntryHash)) (weights : Weights) : SearchState :=
  let incumbent := (greedyIncumbent hard weights).getD (∅, wordMax)
  { bestCut := incumbent.1, bestCost := incumbent.2, nodesVisited := 0 }

end SearchState

/-! ## Solve -/

/-- The weight of each literal; a later soft clause overrides an earlier one. -/
def HazardEncoding.weights (encoding : HazardEncoding) : Weights :=
  SortedMap.ofList (encoding.soft.flatMap fun soft => soft.1.map fun literal => (literal, soft.2))

def compareHardSets (left right : List EntryHash) : Ordering :=
  (compare left.length right.length).then (compare left right)

/-- The non-empty hard clauses as sets, short ones first. -/
def HazardEncoding.hardSets (encoding : HazardEncoding) : List (List EntryHash) :=
  ((encoding.hard.map fun clause => clause.dedup.insertionSort (· ≤ ·)).filter (!·.isEmpty)).insertionSort
    fun left right => (compareHardSets left right).isLE

/-- The sum of the weights wraps around, as it does in a release build. -/
def solveMaxsatBnbWithBudget (encoding : HazardEncoding) (maxClauses : Nat)
    (maxCostUnits maxNodes : UInt64) : Except SolverError MaxSatSolution :=
  if encoding.hard.isEmpty then
    .ok { cut := [], totalCost := 0
          lowerBoundProof := { method := lowerBoundMethod, unsatCoreCost := 0 } }
  else if maxClauses < encoding.hard.length then
    .error (.budgetExhausted "hard clause count exceeds budget")
  else if maxCostUnits < (encoding.weights.entries.map (·.2)).sum then
    .error (.budgetExhausted "cost units exceed budget")
  else
    match SearchState.dfs encoding.weights encoding.cardinality maxNodes encoding.hardSets ∅ 0
        (SearchState.start encoding.hardSets encoding.weights) with
    | (.error fault, _) => .error fault
    | (.ok (), state) =>
      if state.bestCost = wordMax then .error .unsupported
      else
        .ok { cut := state.bestCut.sort (· ≤ ·)
              totalCost := state.bestCost
              lowerBoundProof :=
                { method := lowerBoundMethod
                  unsatCoreCost := min (disjointLower encoding.hard encoding.weights) state.bestCost } }

/-- The solution that is read off a finished search. -/
def HazardEncoding.solution (encoding : HazardEncoding) (state : SearchState) : MaxSatSolution where
  cut := state.bestCut.sort (· ≤ ·)
  totalCost := state.bestCost
  lowerBoundProof :=
    { method := lowerBoundMethod
      unsatCoreCost := min (disjointLower encoding.hard encoding.weights) state.bestCost }

end Ldgr.Explorer
