import Ldgr.Base.Action
import Ldgr.Base.SortedMap
import Ldgr.Base.Word

/-! The descriptor table of the WASI file system. Handles count up from 3 and are not reused; a closed
description stays in the table. -/

namespace Ldgr.Sim

open Base List

structure FdRights where
  read : Bool
  write : Bool
  seek : Bool

structure FdFlags where
  append : Bool

structure OpenFileDescription where
  path : String
  fd : Nat
  cursor : UInt64
  append : Bool
  rights : FdRights
  flags : FdFlags
  closed : Bool

inductive FdError
  | fdTableFull
  | notOpen
  | closed
  | notGranted
  deriving DecidableEq

def maxOpenFds : Nat := 4096

structure WasiFdTable where
  map : SortedMap Nat OpenFileDescription
  nextFd : Nat

namespace WasiFdTable

def new : WasiFdTable :=
  { map := .empty, nextFd := 3 }

/-- Handles are 32-bit words, as is the number of descriptions that is compared with the limit. -/
def openWithFlags (path : String) (rights : FdRights) (flags : FdFlags) :
    Action WasiFdTable FdError Nat := fun table =>
  if maxOpenFds ≤ table.map.entries.length % 2 ^ 32 then (.error .fdTableFull, table)
  else
    let fd := table.nextFd
    (.ok fd,
      { map := table.map.insert fd
          { path, fd, cursor := 0, append := flags.append, rights, flags, closed := false }
        nextFd := min (fd + 1) (2 ^ 32 - 1) })

def close (table : WasiFdTable) (fd : Nat) : Bool × WasiFdTable :=
  match table.map.lookup fd with
  | some description =>
    (true, { table with map := table.map.insert fd { description with closed := true } })
  | none => (false, table)

def openCount (table : WasiFdTable) : Nat :=
  table.map.entries.countP fun entry => !entry.2.closed

theorem openCount_lt {table : WasiFdTable} {entry : Nat × OpenFileDescription}
    (member : entry ∈ table.map.entries) (closed : entry.2.closed = true) :
    table.openCount < table.map.entries.length := by
  refine lt_of_le_of_ne countP_le_length fun all => ?_
  simpa [closed] using countP_eq_length.mp all entry member

end WasiFdTable

open WasiFdTable

inductive FdCall
  | openWithFlags (path : String) (rights : FdRights) (flags : FdFlags)
  | close (fd : Nat)

namespace FdCall

def opens : FdCall → Nat
  | .openWithFlags .. => 1
  | .close _ => 0

/-- The table after the call, and the handles that have been returned. -/
def perform (state : WasiFdTable × List Nat) : FdCall → WasiFdTable × List Nat
  | .openWithFlags path rights flags =>
    match WasiFdTable.openWithFlags path rights flags state.1 with
    | (.ok fd, table) => (table, state.2 ++ [fd])
    | (.error _, table) => (table, state.2)
  | .close fd => ((state.1.close fd).2, state.2)

/-- The state after a number of opens, successful or not. -/
structure Issued (opens : Nat) (state : WasiFdTable × List Nat) : Prop where
  size : state.1.map.entries.length = min maxOpenFds opens
  next : state.1.nextFd = 3 + min maxOpenFds opens
  keys : ∀ entry ∈ state.1.map.entries, entry.1 < state.1.nextFd
  below : ∀ fd ∈ state.2, fd < state.1.nextFd
  ascending : state.2.Pairwise (· < ·)

variable {opens : Nat} {state : WasiFdTable × List Nat}

theorem Issued.full_iff (issued : Issued opens state) :
    maxOpenFds ≤ state.1.map.entries.length % 2 ^ 32 ↔ maxOpenFds ≤ opens := by
  have size := issued.size
  unfold maxOpenFds at size ⊢
  omega

theorem length_insert (map : SortedMap Nat OpenFileDescription) (fd : Nat)
    (description : OpenFileDescription) :
    (map.insert fd description).entries.length =
      map.entries.length + if (map.lookup fd).isSome then 0 else 1 := by
  have total := SortedMap.sum_insert (fun _ => 1) map fd description
  simp only [map_const', sum_replicate_nat, Nat.mul_one] at total
  cases found : map.lookup fd <;> simp [found] at total ⊢ <;> omega

theorem Issued.perform (issued : Issued opens state) (call : FdCall) :
    Issued (opens + call.opens) (call.perform state) := by
  obtain ⟨table, handles⟩ := state
  have full := issued.full_iff
  obtain ⟨size, next, keys, below, ascending⟩ := issued
  cases call with
  | openWithFlags path rights flags =>
    simp only [FdCall.perform, WasiFdTable.openWithFlags, FdCall.opens]
    split_ifs with refused
    · have same : min maxOpenFds (opens + 1) = min maxOpenFds opens := by
        have := full.mp refused
        omega
      exact ⟨same ▸ size, same ▸ next, keys, below, ascending⟩
    · have room : min maxOpenFds (opens + 1) = min maxOpenFds opens + 1 := by
        have := mt full.mpr refused
        omega
      dsimp only at size next keys below
      have unused : table.map.lookup table.nextFd = none := by
        cases found : table.map.lookup table.nextFd with
        | none => rfl
        | some description => exact absurd (keys _ (SortedMap.lookup_eq_some_iff.mp found)) (lt_irrefl _)
      have following : min (table.nextFd + 1) (2 ^ 32 - 1) = table.nextFd + 1 := by
        unfold maxOpenFds at next
        omega
      dsimp only
      rw [following]
      refine ⟨?_, ?_, ?_, ?_, ?_⟩
      · rw [length_insert, unused, size, room]
        rfl
      · rw [next, room, Nat.add_assoc]
      · intro entry member
        rcases SortedMap.mem_insert.mp member with rfl | ⟨-, earlier⟩
        · exact Nat.lt_succ_self _
        · exact Nat.lt_succ_of_lt (keys entry earlier)
      · exact forall_mem_append.mpr ⟨fun fd member => Nat.lt_succ_of_lt (below fd member),
          forall_mem_singleton.mpr (Nat.lt_succ_self _)⟩
      · exact pairwise_append.mpr ⟨ascending, pairwise_singleton _ _,
          fun fd member => forall_mem_singleton.mpr (below fd member)⟩
  | close fd =>
    simp only [FdCall.perform, WasiFdTable.close, FdCall.opens]
    cases found : table.map.lookup fd with
    | none => exact ⟨size, next, keys, below, ascending⟩
    | some description =>
      refine ⟨?_, next, fun entry member => ?_, below, ascending⟩
      · rw [length_insert, found, size]
        rfl
      · rcases SortedMap.mem_insert.mp member with rfl | ⟨-, earlier⟩
        · exact keys (fd, description) (SortedMap.lookup_eq_some_iff.mp found)
        · exact keys entry earlier

theorem Issued.foldl (issued : Issued opens state) (calls : List FdCall) :
    Issued (opens + (calls.map FdCall.opens).sum) (calls.foldl FdCall.perform state) := by
  induction calls generalizing opens state with
  | nil => exact issued
  | cons call calls ih =>
    rw [map_cons, sum_cons, ← Nat.add_assoc]
    exact ih (issued.perform call)

theorem issued_foldl (calls : List FdCall) :
    Issued (calls.map FdCall.opens).sum (calls.foldl FdCall.perform (new, [])) := by
  have start : Issued 0 (new, []) := ⟨rfl, rfl, nofun, nofun, .nil⟩
  simpa using start.foldl calls

theorem Issued.openWithFlags_full (issued : Issued opens state) (path : String) (rights : FdRights)
    (flags : FdFlags) :
    (WasiFdTable.openWithFlags path rights flags state.1).1 = .error .fdTableFull ↔ maxOpenFds ≤ opens := by
  rw [← issued.full_iff, WasiFdTable.openWithFlags]
  split_ifs with refused
  · exact iff_of_true rfl refused
  · exact iff_of_false nofun refused

/-- No later open replaces a description. -/
theorem Issued.mem_foldl (issued : Issued opens state) {entry : Nat × OpenFileDescription}
    (member : entry ∈ state.1.map.entries) (path : String) (rights : FdRights) (flags : FdFlags)
    (count : Nat) :
    entry ∈ ((replicate count (.openWithFlags path rights flags)).foldl FdCall.perform
      state).1.map.entries := by
  induction count generalizing opens state with
  | zero => exact member
  | succ count ih =>
    refine ih (issued.perform _) ?_
    simp only [FdCall.perform, WasiFdTable.openWithFlags]
    split_ifs
    · exact member
    · exact SortedMap.mem_insert.mpr (.inr ⟨(issued.keys entry member).ne, member⟩)

end FdCall

/-- After any calls, an open that fails finds the limit of open descriptors exactly when fewer opens
than the limit were made or nothing has been closed. Handles are never returned twice. -/
theorem openWithFlags_full_iff (calls : List FdCall) (path : String) (rights : FdRights)
    (flags : FdFlags) :
    let state := calls.foldl FdCall.perform (new, [])
    (((openWithFlags path rights flags state.1).1 = .error .fdTableFull →
        state.1.openCount = maxOpenFds) ↔
      (calls.map FdCall.opens).sum < maxOpenFds ∨
        ∀ entry ∈ state.1.map.entries, entry.2.closed = false) ∧
    state.2.Nodup := by
  intro state
  have issued := FdCall.issued_foldl calls
  refine ⟨?_, issued.ascending.imp ne_of_lt⟩
  rw [issued.openWithFlags_full, ← Nat.not_lt, ← or_iff_not_imp_left]
  refine or_congr_right' fun many => ?_
  have size : state.1.map.entries.length = maxOpenFds :=
    issued.size.trans (Nat.min_eq_left (Nat.le_of_not_lt many))
  rw [openCount, ← size, countP_eq_length]
  simp

/-- The first descriptor is closed before the others are opened. -/
def closedFirst : List FdCall :=
  let call := FdCall.openWithFlags "/a" ⟨true, true, true⟩ ⟨false⟩
  [call, .close 3] ++ replicate (maxOpenFds - 1) call

/-- The table is full although one descriptor less is open. -/
theorem closedFirst_full :
    let table := (closedFirst.foldl FdCall.perform (new, [])).1
    (openWithFlags "/a" ⟨true, true, true⟩ ⟨false⟩ table).1 = .error .fdTableFull ∧
      table.openCount < maxOpenFds := by
  have issued := FdCall.issued_foldl closedFirst
  have many : (closedFirst.map FdCall.opens).sum = maxOpenFds := by
    rw [closedFirst, map_append, map_replicate, sum_append_nat, sum_replicate_nat]
    rfl
  have closed := (FdCall.issued_foldl (closedFirst.take 2)).mem_foldl mem_cons_self "/a"
    ⟨true, true, true⟩ ⟨false⟩ (maxOpenFds - 1)
  rw [← foldl_append, show closedFirst.take 2 ++ _ = closedFirst from rfl] at closed
  rw [many] at issued
  have fewer := openCount_lt closed rfl
  rw [issued.size, Nat.min_self] at fewer
  exact ⟨(issued.openWithFlags_full ..).mpr (le_refl _), fewer⟩

end Ldgr.Sim
