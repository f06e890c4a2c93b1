import Ldgr.Explorer.Maxsat

/-! Which faultable events a witness descends from: support expressions, the walk over the parents, and
the index that keeps its result between calls, which refreshing leaves as it is. -/

namespace Ldgr.Explorer

open Base Format

def sortedSet (ids : List EntryHash) : List EntryHash :=
  ids.dedup.insertionSort (· ≤ ·)

/-- Sorted, and without the repetitions that sorting brings together. -/
def sortDedup (paths : List (List EntryHash)) : List (List EntryHash) :=
  (paths.insertionSort (· ≤ ·)).destutter (· ≠ ·)

/-! ## Support -/

inductive SupportExpr where
  | allOf (ids : List EntryHash)
  | anyOf (branches : List SupportExpr)
  | unknown

inductive SupportOutcome where
  | satisfied
  | notSatisfied
  | unknown
  deriving DecidableEq

namespace SupportExpr

mutual

/-- Nothing about the support is unknown. -/
def isStrong : SupportExpr → Bool
  | .allOf _ => true
  | .anyOf branches => allStrong branches
  | .unknown => false

def allStrong : List SupportExpr → Bool
  | [] => true
  | branch :: branches => branch.isStrong && allStrong branches

end

mutual

/-- What the expression comes to when `present` tells which ids there are. Nothing is known past the
horizon. -/
def evalDepth (present : EntryHash → Bool) (horizon : Option Nat) : Nat → SupportExpr → SupportOutcome
  | depth, .allOf ids =>
    if horizon.any (· < depth) then .unknown
    else if ids.all present then .satisfied
    else .notSatisfied
  | depth, .anyOf branches =>
    if horizon.any (· < depth) then .unknown
    else evalBranches present horizon (depth + 1) false branches
  | _, .unknown => .unknown

def evalBranches (present : EntryHash → Bool) (horizon : Option Nat) (depth : Nat) (sawUnknown : Bool) :
    List SupportExpr → SupportOutcome
  | [] => if sawUnknown then .unknown else .notSatisfied
  | branch :: branches =>
    match evalDepth present horizon depth branch with
    | .satisfied => .satisfied
    | .unknown => evalBranches present horizon depth true branches
    | .notSatisfied => evalBranches present horizon depth sawUnknown branches

end

def evaluateWithHorizon (journal : Journal) (horizon : Option Nat) (expr : SupportExpr) : SupportOutcome :=
  expr.evalDepth (fun id => (journal.get id).isSome) horizon 0

def evaluate (journal : Journal) (expr : SupportExpr) : SupportOutcome :=
  expr.evaluateWithHorizon journal none

end SupportExpr

mutual

/-- One clause for each group of jointly required ids. -/
def hardClausesFromSupport : SupportExpr → List (List EntryHash)
  | .allOf ids => if ids.isEmpty then [] else [ids]
  | .anyOf branches => hardClausesFromBranches branches
  | .unknown => []

def hardClausesFromBranches : List SupportExpr → List (List EntryHash)
  | [] => []
  | branch :: branches => hardClausesFromSupport branch ++ hardClausesFromBranches branches

end

/-- The branches a list of paths stands for; a cut walk adds an unknown one. -/
def supportFromPaths (paths : List (List EntryHash)) (truncated : Bool) : SupportExpr :=
  let branches := ((paths.filter (!·.isEmpty)).map fun path => SupportExpr.allOf (sortedSet path)) ++
    if truncated then [.unknown] else []
  match branches with
  | [] => .unknown
  | [only] => if truncated then .anyOf [only] else only
  | _ => .anyOf branches

/-! ## Configuration -/

inductive SolverEngine where
  | auto
  | builtin
  | cadical
  deriving DecidableEq

structure SolverConfig where
  maxHorizon : Option Nat := none
  oracleVersion : Option UInt64 := none
  inputClass : Option UInt64 := none
  maxFaults : Option Nat := none
  engine : SolverEngine := .auto
  runConfigHash : Option EntryHash := none
  supportVersion : Option UInt64 := none
  supportDigest : Option EntryHash := none
  deriving DecidableEq

def costModelVersion : UInt8 := 1

def engineTagBuiltin : UInt8 := 0

def engineTagCadical : UInt8 := 1

def optionalBytes {α : Type} (encode : α → Bytes) : Option α → Bytes
  | some value => 0x01 :: encode value
  | none => [0x00]

def wordBytes (value : UInt64) : Bytes :=
  leBytes 8 value.toNat

def hashBytes (hash : EntryHash) : Bytes :=
  hash.digest.1

def fingerprint (blake3 : Bytes → EntryHash) (config : SolverConfig) (resolvedEngine : SolverEngine) :
    EntryHash :=
  let horizon : Bytes := match config.maxHorizon with
    | some value => 0x01 :: leBytes 8 value
    | none => [0x00, 0xFF, 0xFF]
  let engineByte : UInt8 := match resolvedEngine with
    | .builtin => engineTagBuiltin
    | .cadical => engineTagCadical
    | .auto => 0xFE
  blake3 ("ldgr.solver_state.config.fingerprint.v2".toUTF8.toList ++ [0x00, costModelVersion] ++
    0x01 :: horizon ++ 0x02 :: optionalBytes wordBytes config.oracleVersion ++
    0x03 :: optionalBytes wordBytes config.inputClass ++
    0x04 :: optionalBytes (leBytes 8) config.maxFaults ++ [0x05, engineByte] ++
    0x06 :: optionalBytes hashBytes config.runConfigHash ++
    0x07 :: optionalBytes wordBytes config.supportVersion ++
    0x08 :: optionalBytes hashBytes config.supportDigest)

/-! ## Walks -/

def isFaultable (kind : EntryKind) : Bool :=
  kind = .send ∨ kind = .recv ∨ kind = .fsRead ∨ kind = .fsWrite ∨ kind = .timerFire ∨ kind = .timerSet

structure Walk where
  paths : List (List EntryHash)
  closure : List EntryHash
  truncated : Bool

namespace Walk

def empty : Walk :=
  { paths := [], closure := [], truncated := false }

def addPath (path : List EntryHash) (walk : Walk) : Walk :=
  if path.isEmpty then walk else { walk with paths := walk.paths ++ [path] }

def enter (id : EntryHash) (walk : Walk) : Walk :=
  { walk with closure := if id ∈ walk.closure then walk.closure else id :: walk.closure }

def cut (path : List EntryHash) (walk : Walk) : Walk :=
  { walk.addPath path with truncated := true }

end Walk

/-- The faultable ids on the way, with the entry reached if it is one of them. -/
def extendPath (entry : Entry) (current : EntryHash) (path : List EntryHash) : List EntryHash :=
  if isFaultable entry.data.kind then path ++ [current] else path

/-- The walk to a horizon, with `left` more levels to go. -/
def collectBoundedHash (journal : Journal) : Nat → EntryHash → List EntryHash → Walk → Walk
  | 0, _, path, walk => walk.cut path
  | left + 1, current, path, walk =>
    match journal.get current with
    | none => walk
    | some entry =>
      let path := extendPath entry current path
      if entry.data.parents.isEmpty then (walk.enter current).addPath path
      else
        entry.data.parents.foldl (fun walk parent => collectBoundedHash journal left parent path walk)
          (walk.enter current)

def lineageWalkNodeBudget : Nat := 1000000

inductive Frame where
  | enter (id : EntryHash)
  | exit (pushed : Bool)

/-- The walk without a horizon: a stack of entries still to visit, and a budget for visits. -/
def collectHashFrom (journal : Journal) (budget : Nat) (stack : List Frame) (path : List EntryHash)
    (walk : Walk) : Walk :=
  match stack with
  | [] => walk
  | .exit pushed :: stack =>
    collectHashFrom journal budget stack (if pushed then path.dropLast else path) walk
  | .enter current :: stack =>
    match budget with
    | 0 => collectHashFrom journal 0 stack path (walk.cut path)
    | budget + 1 =>
      match journal.get current with
      | none => collectHashFrom journal budget stack path walk
      | some entry =>
        let path := extendPath entry current path
        let leaving := Frame.exit (isFaultable entry.data.kind)
        if entry.data.parents.isEmpty then
          collectHashFrom journal budget (leaving :: stack) path ((walk.enter current).addPath path)
        else
          collectHashFrom journal budget (entry.data.parents.reverse.map Frame.enter ++ leaving :: stack) path
            (walk.enter current)
termination_by (budget, stack.length)

def collectHash (journal : Journal) (start : EntryHash) (walk : Walk) : Walk :=
  collectHashFrom journal lineageWalkNodeBudget [.enter start] [] walk

def walkFrom (journal : Journal) (maxHorizon : Option Nat) (walk : Walk) (witness : EntryHash) : Walk :=
  match maxHorizon with
  | some horizon => collectBoundedHash journal (horizon + 1) witness [] walk
  | none => collectHash journal witness walk

def walkWitnesses (journal : Journal) (witnesses : List EntryHash) (maxHorizon : Option Nat) : Walk :=
  witnesses.foldl (walkFrom journal maxHorizon) .empty

/-- The visited entries and the clauses of the paths. -/
def collectLineage (journal : Journal) (witnesses : List EntryHash) (config : SolverConfig) :
    List EntryHash × List (List EntryHash) :=
  let walk := walkWitnesses journal witnesses config.maxHorizon
  let boundedCut := walk.truncated && config.maxHorizon.isSome
  let paths := hardClausesFromSupport (supportFromPaths walk.paths boundedCut)
  if paths.isEmpty then
    (walk.closure, sortDedup (((sortDedup walk.paths).filter (!·.isEmpty)).map sortedSet))
  else (walk.closure, sortDedup (paths.map (·.insertionSort (· ≤ ·))))

/-! ## Index -/

structure LineageIndex where
  closure : List EntryHash
  paths : List (List EntryHash)
  configFingerprint : EntryHash

namespace LineageIndex

def build (blake3 : Bytes → EntryHash) (journal : Journal) (witnesses : List EntryHash)
    (config : SolverConfig) (resolvedEngine : SolverEngine) : LineageIndex :=
  let (closure, paths) := collectLineage journal witnesses config
  { closure, paths, configFingerprint := fingerprint blake3 config resolvedEngine }

/-- Walks the witnesses that are not in the closure yet, unless the configuration has changed. -/
def refresh (blake3 : Bytes → EntryHash) (journal : Journal) (witnesses : List EntryHash)
    (config : SolverConfig) (resolvedEngine : SolverEngine) (index : LineageIndex) : LineageIndex :=
  if fingerprint blake3 config resolvedEngine ≠ index.configFingerprint then
    build blake3 journal witnesses config resolvedEngine
  else
    let newWitnesses := witnesses.filter (· ∉ index.closure)
    if newWitnesses.isEmpty then index
    else
      let (closure, paths) := collectLineage journal newWitnesses config
      { closure := (index.closure ++ closure).dedup
        paths := sortDedup (index.paths ++ paths)
        configFingerprint := fingerprint blake3 config resolvedEngine }

end LineageIndex

open List

variable {journal : Journal} {id : EntryHash}

/-! ## Sorting -/

theorem sortDedup_sortDedup (paths : List (List EntryHash)) :
    sortDedup (sortDedup paths) = sortDedup paths := by
  have sorted : (sortDedup paths).Pairwise (· ≤ ·) :=
    (pairwise_insertionSort (· ≤ ·) paths).sublist (destutter_sublist _ _)
  rw [sortDedup, sorted.insertionSort_eq]
  exact destutter_idem ..

/-! ## Closures -/

namespace Walk

@[simp] theorem closure_addPath (path : List EntryHash) (walk : Walk) :
    (walk.addPath path).closure = walk.closure := by
  unfold addPath
  split_ifs <;> rfl

@[simp] theorem closure_cut (path : List EntryHash) (walk : Walk) : (walk.cut path).closure = walk.closure :=
  closure_addPath path walk

theorem mem_closure_enter {current : EntryHash} {walk : Walk} :
    id ∈ (walk.enter current).closure ↔ id = current ∨ id ∈ walk.closure := by
  unfold enter
  split_ifs with present
  · exact (or_iff_right_of_imp fun same => same ▸ present).symm
  · exact mem_cons

end Walk

variable {walk : Walk} {maxHorizon : Option Nat} {witness : EntryHash}

theorem mem_closure_foldl {α : Type} {step : Walk → α → Walk}
    (keeps : ∀ walk item, id ∈ walk.closure → id ∈ (step walk item).closure)
    (member : id ∈ walk.closure) (items : List α) : id ∈ (items.foldl step walk).closure := by
  induction items generalizing walk with
  | nil => exact member
  | cons item items ih => exact ih (keeps walk item member)

theorem mem_closure_collectBoundedHash {left : Nat} {current : EntryHash} {path : List EntryHash}
    (member : id ∈ walk.closure) :
    id ∈ (collectBoundedHash journal left current path walk).closure := by
  induction left generalizing current path walk with
  | zero =>
    rw [collectBoundedHash, Walk.closure_cut]
    exact member
  | succ left ih =>
    rw [collectBoundedHash]
    cases journal.get current with
    | none => exact member
    | some entry =>
      have entered : id ∈ (walk.enter current).closure := Walk.mem_closure_enter.mpr (.inr member)
      simp only
      split_ifs
      · rw [Walk.closure_addPath]
        exact entered
      · exact mem_closure_foldl (fun walk parent member => ih member) entered _

theorem mem_closure_collectHashFrom {budget : Nat} {stack : List Frame} {path : List EntryHash}
    (member : id ∈ walk.closure) :
    id ∈ (collectHashFrom journal budget stack path walk).closure := by
  fun_induction collectHashFrom journal budget stack path walk with
  | case1 => exact member
  | case2 budget path walk pushed stack ih => exact ih member
  | case3 path walk current stack ih =>
    exact ih ((Walk.closure_cut _ _).symm ▸ member)
  | case4 path walk current stack budget absent ih => exact ih member
  | case5 path walk current stack budget entry found extended leaving orphan ih =>
    refine ih ?_
    rw [Walk.closure_addPath]
    exact Walk.mem_closure_enter.mpr (.inr member)
  | case6 path walk current stack budget entry found extended leaving parents ih =>
    exact ih (Walk.mem_closure_enter.mpr (.inr member))

theorem mem_closure_walkFrom
    (member : id ∈ walk.closure) : id ∈ (walkFrom journal maxHorizon walk witness).closure := by
  cases maxHorizon with
  | some horizon => exact mem_closure_collectBoundedHash member
  | none => exact mem_closure_collectHashFrom member

theorem walkFrom_of_missing (maxHorizon : Option Nat) (missing : journal.get witness = none) (walk : Walk) :
    walkFrom journal maxHorizon walk witness = walk := by
  cases maxHorizon with
  | some horizon => rw [walkFrom, collectBoundedHash, missing]
  | none =>
    rw [walkFrom, collectHash, show lineageWalkNodeBudget = 999999 + 1 from rfl, collectHashFrom, missing]
    simp only
    rw [collectHashFrom]

theorem witness_mem_walkFrom (present : (journal.get witness).isSome) (walk : Walk) :
    witness ∈ (walkFrom journal maxHorizon walk witness).closure := by
  obtain ⟨entry, found⟩ := Option.isSome_iff_exists.mp present
  have entered : witness ∈ (walk.enter witness).closure := Walk.mem_closure_enter.mpr (.inl rfl)
  cases maxHorizon with
  | some horizon =>
    rw [walkFrom, collectBoundedHash, found]
    simp only
    split_ifs
    · rw [Walk.closure_addPath]
      exact entered
    · exact mem_closure_foldl (fun walk parent member => mem_closure_collectBoundedHash member) entered _
  | none =>
    rw [walkFrom, collectHash, show lineageWalkNodeBudget = 999999 + 1 from rfl, collectHashFrom, found]
    simp only
    split_ifs
    · refine mem_closure_collectHashFrom ?_
      rw [Walk.closure_addPath]
      exact entered
    · exact mem_closure_collectHashFrom entered

theorem mem_closure_walkWitnesses {witnesses : List EntryHash}
    (listed : id ∈ witnesses) (present : (journal.get id).isSome) :
    id ∈ (walkWitnesses journal witnesses maxHorizon).closure := by
  obtain ⟨before, after, rfl⟩ := append_of_mem listed
  rw [walkWitnesses, foldl_append, foldl_cons]
  exact mem_closure_foldl (fun walk witness => mem_closure_walkFrom) (witness_mem_walkFrom present _) _

theorem walkWitnesses_of_missing {witnesses : List EntryHash}
    (missing : ∀ witness ∈ witnesses, journal.get witness = none) :
    walkWitnesses journal witnesses maxHorizon = .empty := by
  rw [walkWitnesses]
  induction witnesses with
  | nil => rfl
  | cons witness witnesses ih =>
    rw [foldl_cons, walkFrom_of_missing maxHorizon (missing witness mem_cons_self)]
    exact ih fun witness member => missing witness (mem_cons_of_mem _ member)

/-! ## Lineage -/

theorem closure_collectLineage (journal : Journal) (witnesses : List EntryHash) (config : SolverConfig) :
    (collectLineage journal witnesses config).1 =
      (walkWitnesses journal witnesses config.maxHorizon).closure := by
  unfold collectLineage
  simp only
  split_ifs <;> rfl

theorem collectLineage_of_missing {witnesses : List EntryHash} (config : SolverConfig)
    (missing : ∀ witness ∈ witnesses, journal.get witness = none) :
    collectLineage journal witnesses config = ([], []) := by
  rw [collectLineage, walkWitnesses_of_missing missing]
  rfl

theorem sortDedup_paths (journal : Journal) (witnesses : List EntryHash) (config : SolverConfig) :
    sortDedup (collectLineage journal witnesses config).2 = (collectLineage journal witnesses config).2 := by
  unfold collectLineage
  simp only
  split_ifs <;> exact sortDedup_sortDedup _

theorem collectLineage_congr {config other : SolverConfig} (same : config.maxHorizon = other.maxHorizon)
    (journal : Journal) (witnesses : List EntryHash) :
    collectLineage journal witnesses config = collectLineage journal witnesses other := by
  unfold collectLineage
  rw [same]

/-- What an index is for: the walk from these witnesses, by this configuration. -/
structure LineageIndex.Indexes (blake3 : Bytes → EntryHash) (journal : Journal)
    (witnesses : List EntryHash) (config : SolverConfig) (index : LineageIndex) : Prop where
  closure : ∀ id, id ∈ index.closure ↔ id ∈ (collectLineage journal witnesses config).1
  paths : index.paths = (collectLineage journal witnesses config).2
  configFingerprint : index.configFingerprint = fingerprint blake3 config .builtin

variable {blake3 : Bytes → EntryHash} {witnesses : List EntryHash} {config : SolverConfig}
  {index : LineageIndex}

theorem LineageIndex.indexes_build : (build blake3 journal witnesses config .builtin).Indexes blake3
    journal witnesses config where
  closure _ := Iff.rfl
  paths := rfl
  configFingerprint := rfl

/-- Only witnesses that are missing from the journal are walked again, and they add nothing. -/
theorem LineageIndex.Indexes.refresh (indexes : index.Indexes blake3 journal witnesses config) :
    (index.refresh blake3 journal witnesses config .builtin).Indexes blake3 journal witnesses config := by
  rw [LineageIndex.refresh, if_neg (by rw [indexes.configFingerprint]; exact not_not.mpr rfl)]
  simp only
  split_ifs
  · exact indexes
  · have missing : ∀ witness ∈ witnesses.filter (· ∉ index.closure), journal.get witness = none := by
      intro witness member
      obtain ⟨listed, outside⟩ := mem_filter.mp member
      by_contra present
      refine of_decide_eq_true outside ((indexes.closure witness).mpr ?_)
      rw [closure_collectLineage]
      exact mem_closure_walkWitnesses listed (Option.isSome_iff_ne_none.mpr present)
    rw [collectLineage_of_missing config missing]
    refine ⟨fun id => ?_, ?_, rfl⟩
    · rw [append_nil, mem_dedup]
      exact indexes.closure id
    · simp only [append_nil, indexes.paths, sortDedup_paths]

end Ldgr.Explorer
