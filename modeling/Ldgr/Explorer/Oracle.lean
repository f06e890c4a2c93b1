import Ldgr.Journal.Dag

/-! Verdicts over journals, and the oracle that looks for a serial order of the recorded operations. -/

namespace Ldgr.Explorer

open Base Format

structure Verdict where
  violated : Bool
  witnesses : List EntryHash
  reason : String
  deriving DecidableEq

namespace Verdict

def pass : Verdict :=
  { violated := false, witnesses := [], reason := "specification satisfied" }

def fail (witnesses : List EntryHash) (reason : String) : Verdict :=
  { violated := true, witnesses, reason }

end Verdict

inductive HistoryOperation where
  | write (key : String) (value : UInt64) (witness : EntryHash)
  | read (key : String) (value : UInt64) (witness : EntryHash)
  | push (value : UInt64) (witness : EntryHash)
  | pop (value : UInt64) (witness : EntryHash)
  deriving DecidableEq

structure LinOperation where
  invoke : EntryHash
  response : EntryHash
  operation : HistoryOperation
  deriving DecidableEq

/-- What a state becomes, or why the operation is refused in it. -/
structure SequentialSpec (σ : Type) where
  initial : σ
  apply : σ → HistoryOperation → Except String σ

/-- The oracle over a specification; `render` is the debug text of an operation. -/
structure LinearizabilityOracle (σ : Type) where
  specification : SequentialSpec σ
  bound : Nat
  render : HistoryOperation → String

def defaultLinBound : Nat := 12

/-- The operation that could not be placed, after which others, and why. -/
structure LinFailure where
  preceding : List Nat
  index : Nat
  reason : String

/-- What the search changes and restores as it goes. -/
structure Serializing where
  pending : List Bool
  serialized : List Nat
  failure : Option LinFailure

namespace Serializing

def isPending (search : Serializing) (index : Nat) : Bool :=
  search.pending.getD index false

/-- Still open, with every predecessor placed. -/
def ready (predecessors : List (List Nat)) (search : Serializing) (index : Nat) : Bool :=
  search.isPending index && (predecessors.getD index []).all fun earlier => !search.isPending earlier

def place (index : Nat) (search : Serializing) : Serializing :=
  { search with
    pending := search.pending.set index false
    serialized := search.serialized ++ [index] }

def unplace (index : Nat) (search : Serializing) : Serializing :=
  { search with
    pending := search.pending.set index true
    serialized := search.serialized.dropLast }

end Serializing

section Search

variable {σ : Type} (apply : σ → HistoryOperation → Except String σ) (operations : List LinOperation)
  (predecessors : List (List Nat))

/-- The outcome for one ready operation; `none` when there is no such operation. -/
def tryApply (state : σ) (search : Serializing) (index : Nat) : Option (Except String σ) :=
  if search.ready predecessors index then
    operations[index]?.map fun operation => apply state operation.operation
  else none

/-- Places the operations that can come next, in index order, each as far as `visit` goes. -/
def placeEach (visit : σ → Serializing → Bool × Serializing) (state : σ) :
    List Nat → Serializing → Bool × Serializing
  | [], search => (false, search)
  | index :: indices, search =>
    match tryApply apply operations predecessors state search index with
    | some (.ok next) =>
      match visit next (search.place index) with
      | (true, found) => (true, found)
      | (false, after) => placeEach visit state indices (after.unplace index)
    | _ => placeEach visit state indices search

/-- Keeps the first operation that the specification refuses, unless a failure is known. -/
def noteFailure (state : σ) (search : Serializing) : Serializing :=
  if search.failure.isSome then search
  else
    { search with
      failure := (List.range operations.length).findSome? fun index =>
        match tryApply apply operations predecessors state search index with
        | some (.error reason) => some { preceding := search.serialized, index, reason }
        | _ => none }

/-- The search for a serial order. Every level places one operation, so the number of operations
is depth enough. -/
def findSerialization : Nat → σ → Serializing → Bool × Serializing
  | depth, state, search =>
    if !search.pending.any id then (true, search)
    else
      match depth with
      | 0 => (false, search)
      | depth + 1 =>
        match placeEach apply operations predecessors (findSerialization depth) state
            (List.range operations.length) search with
        | (true, found) => (true, found)
        | (false, after) => (false, noteFailure apply operations predecessors state after)

end Search

/-- The clocks of the invoke and the response entry of every operation. -/
def operationClocks (journal : Journal) : List LinOperation → Except Verdict (List (VectorClock × VectorClock))
  | [] => .ok []
  | operation :: operations =>
    match journal.get operation.invoke with
    | none => .error (.fail [operation.invoke] "linearizability: missing invoke entry")
    | some invoke =>
      match journal.get operation.response with
      | none => .error (.fail [operation.response] "linearizability: missing response entry")
      | some response =>
        (operationClocks journal operations).map ((invoke.vectorClock, response.vectorClock) :: ·)

/-- For every operation, the others that ended before it began. -/
def predecessorsOf (clocks : List (VectorClock × VectorClock)) : List (List Nat) :=
  clocks.mapIdx fun later clock =>
    (List.range clocks.length).filter fun earlier =>
      earlier ≠ later && (clocks[earlier]?.any fun other => other.2.happensBefore clock.1)

namespace LinearizabilityOracle

variable {σ : Type}

def new (specification : SequentialSpec σ) (render : HistoryOperation → String) : LinearizabilityOracle σ :=
  { specification, bound := defaultLinBound, render }

/-- The verdict on a history without a serial order. -/
def rejection (oracle : LinearizabilityOracle σ) (operations : List LinOperation)
    (failure : LinFailure) : Verdict :=
  let chain := " -> ".intercalate (failure.preceding.map fun index =>
    toString index ++ ":" ++ ((operations[index]?.map fun operation =>
      hexDebug (operation.invoke.digest.1.take 4)).getD ""))
  match operations[failure.index]? with
  | none => .fail [] failure.reason
  | some operation =>
    .fail [operation.invoke, operation.response]
      ("non-linearizable: no serial order extends the real-time order; operation " ++
        toString failure.index ++ " (" ++ oracle.render operation.operation ++ ") rejected after [" ++
        chain ++ "]: " ++ failure.reason)

def checkOperations (oracle : LinearizabilityOracle σ) (journal : Journal)
    (operations : List LinOperation) : Verdict :=
  if oracle.bound < operations.length then
    { violated := false
      witnesses := []
      reason := "linearizability check bounded at " ++ toString oracle.bound ++
        " operations; history has " ++ toString operations.length }
  else
    match operationClocks journal operations with
    | .error missing => missing
    | .ok clocks =>
      match findSerialization oracle.specification.apply operations (predecessorsOf clocks)
          operations.length oracle.specification.initial
          { pending := operations.map fun _ => true, serialized := [], failure := none } with
      | (true, _) => .pass
      | (false, search) =>
        oracle.rejection operations (search.failure.getD
          { preceding := [], index := 0, reason := "no serial order exists" })

end LinearizabilityOracle

end Ldgr.Explorer
