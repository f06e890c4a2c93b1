import Ldgr.Base.Serialization
import Ldgr.Explorer.Oracle
import Ldgr.Journal.DagProperties

/-! The search for a serial order finds one exactly when there is one. -/

namespace Ldgr.Explorer

open Base Format Serializing List

variable {σ : Type} {apply : σ → HistoryOperation → Except String σ} {operations : List LinOperation}
  {predecessors : List (List Nat)}

def specStep (apply : σ → HistoryOperation → Except String σ) (operations : List LinOperation)
    (state : σ) (index : Nat) : Option σ :=
  operations[index]?.bind fun operation => (apply state operation.operation).toOption

namespace Serializing

def remaining (search : Serializing) : Finset Nat :=
  (Finset.range search.pending.length).filter fun index => search.isPending index

variable {search : Serializing} {index : Nat}

theorem mem_remaining : index ∈ search.remaining ↔ search.isPending index = true := by
  rw [remaining, Finset.mem_filter, Finset.mem_range, and_iff_right_iff_imp]
  intro pending
  by_contra outside
  rw [isPending, getD_eq_default _ _ (Nat.not_lt.mp outside)] at pending
  cases pending

theorem remaining_congr {search other : Serializing} (same : other.pending = search.pending) :
    other.remaining = search.remaining := by
  ext index
  rw [mem_remaining, mem_remaining, isPending, isPending, same]

theorem remaining_eq_empty : search.remaining = ∅ ↔ search.pending.any id = false := by
  rw [Finset.eq_empty_iff_forall_notMem, any_eq_false]
  simp only [mem_remaining, isPending, Bool.not_eq_true, id_eq]
  constructor
  · intro none flag member
    obtain ⟨index, inside, rfl⟩ := getElem_of_mem member
    have closed := none index
    rwa [getD_eq_getElem _ _ inside] at closed
  · intro closed index
    by_cases inside : index < search.pending.length
    · rw [getD_eq_getElem _ _ inside]
      exact closed _ (getElem_mem inside)
    · exact getD_eq_default _ _ (Nat.not_lt.mp inside)

theorem ready_iff : search.ready predecessors index = true ↔ index ∈ search.remaining ∧
      ∀ other ∈ search.remaining, other ∉ predecessors.getD index [] := by
  simp only [ready, Bool.and_eq_true, all_eq_true, Bool.not_eq_true', mem_remaining, ← Bool.not_eq_true]
  exact and_congr_right fun _ => ⟨fun placed other pending listed => placed other listed pending,
    fun placed other listed pending => placed other pending listed⟩

theorem remaining_place (search : Serializing) (index : Nat) :
    (search.place index).remaining = search.remaining.erase index := by
  ext other
  rw [Finset.mem_erase, mem_remaining, mem_remaining, isPending, isPending, place]
  simp only [getD_eq_getElem?_getD, getElem?_set]
  by_cases same : index = other
  · subst same
    by_cases inside : index < search.pending.length <;> simp [inside]
  · simp [same, Ne.symm same]

theorem pending_unplace {search after : Serializing}
    (pending : search.isPending index = true) (same : after.pending = (search.place index).pending) :
    (after.unplace index).pending = search.pending := by
  rw [unplace, same, place, set_set]
  refine ext_getElem (length_set ..) fun other inside _ => ?_
  rw [getElem_set]
  split_ifs with same
  · subst same
    rw [isPending, getD_eq_getElem] at pending
    exact pending.symm
  · rfl

end Serializing

/-- What a search from `search` on decides, and that it leaves no trace when it fails. -/
structure Decides (possible : Prop) (search : Serializing) (result : Bool × Serializing) : Prop where
  found : result.1 = true ↔ possible
  restored : result.1 = false → result.2.pending = search.pending

/-- Some order of what is left takes the specification on from `state`. -/
def Completable (apply : σ → HistoryOperation → Except String σ) (operations : List LinOperation)
    (predecessors : List (List Nat)) (remaining : Finset Nat) (state : σ) : Prop :=
  ∃ order, Serializes (specStep apply operations)
    (fun earlier later => earlier ∈ predecessors.getD later []) remaining state order

variable {search : Serializing} {state : σ} {journal : Journal}

theorem tryApply_eq_ok {state next : σ} {index : Nat} :
    tryApply apply operations predecessors state search index = some (.ok next) ↔
      search.ready predecessors index = true ∧ specStep apply operations state index = some next := by
  rw [tryApply, specStep]
  by_cases ready : search.ready predecessors index = true
  · rw [if_pos ready]
    cases operations[index]? with
    | none => simp
    | some operation =>
      cases applied : apply state operation.operation with
      | error reason => simp [applied, Except.toOption]
      | ok after => simp [ready, applied, Except.toOption]
  · rw [if_neg ready]
    simp [ready]

theorem tryApply_congr {search other : Serializing} (same : other.pending = search.pending)
    (index : Nat) : tryApply apply operations predecessors state other index =
      tryApply apply operations predecessors state search index := by
  have ready : other.ready predecessors index = search.ready predecessors index := by
    simp only [ready, isPending, same]
  rw [tryApply, tryApply, ready]

/-- The operation can come next and the rest can follow it. -/
def Leads (apply : σ → HistoryOperation → Except String σ) (operations : List LinOperation)
    (predecessors : List (List Nat)) (state : σ) (search : Serializing) (index : Nat) : Prop :=
  ∃ next, tryApply apply operations predecessors state search index = some (.ok next) ∧
    Completable apply operations predecessors (search.remaining.erase index) next

theorem placeEach_decides {visit : σ → Serializing → Bool × Serializing}
    (visits : ∀ index ∈ search.remaining, ∀ next after, after.pending = (search.place index).pending →
      Decides (Completable apply operations predecessors (search.remaining.erase index) next) after
        (visit next after))
    (indices : List Nat) {current : Serializing} (same : current.pending = search.pending) :
    Decides (∃ index ∈ indices, Leads apply operations predecessors state search index) search
      (placeEach apply operations predecessors visit state indices current) := by
  induction indices generalizing current with
  | nil => exact ⟨by simp [placeEach], fun _ => same⟩
  | cons index indices ih =>
    rw [placeEach, tryApply_congr same, exists_mem_cons_iff]
    have skipped {after : Serializing} (restored : after.pending = search.pending)
        (stuck : ¬Leads apply operations predecessors state search index) :
        Decides (Leads apply operations predecessors state search index ∨
            ∃ index ∈ indices, Leads apply operations predecessors state search index)
          search (placeEach apply operations predecessors visit state indices after) :=
      ⟨(ih restored).found.trans (or_iff_right stuck).symm, (ih restored).restored⟩
    cases tried : tryApply apply operations predecessors state search index with
    | none => exact skipped same fun ⟨next, applied, _⟩ => nomatch tried.symm.trans applied
    | some outcome =>
      cases outcome with
      | error reason => exact skipped same fun ⟨next, applied, _⟩ => nomatch tried.symm.trans applied
      | ok next =>
        have pending := (ready_iff.mp (tryApply_eq_ok.mp tried).1).1
        have placed : (current.place index).pending = (search.place index).pending := by
          simp only [place, same]
        have visited := visits index pending next _ placed
        simp only
        cases result : visit next (current.place index) with
        | mk found after =>
          rw [result] at visited
          cases found with
          | true => exact ⟨iff_of_true rfl (.inl ⟨next, tried, visited.found.mp rfl⟩), nofun⟩
          | false =>
            refine skipped (pending_unplace (mem_remaining.mp pending) ((visited.restored rfl).trans placed)) ?_
            rintro ⟨other, applied, completes⟩
            cases tried.symm.trans applied
            exact Bool.false_ne_true (visited.found.mpr completes)

theorem completable_iff (sized : search.pending.length = operations.length) (some : search.remaining ≠ ∅) :
    Completable apply operations predecessors search.remaining state ↔
      ∃ index ∈ range operations.length, Leads apply operations predecessors state search index := by
  rw [Completable, exists_serializes_iff, or_iff_right some]
  constructor
  · rintro ⟨index, pending, ready, next, stepped, completes⟩
    refine ⟨index, ?_, next, tryApply_eq_ok.mpr ⟨ready_iff.mpr ⟨pending, ready⟩, stepped⟩, completes⟩
    have inside := Finset.mem_range.mp (Finset.mem_filter.mp pending).1
    exact mem_range.mpr (sized ▸ inside)
  · rintro ⟨index, _, next, applied, completes⟩
    obtain ⟨ready, stepped⟩ := tryApply_eq_ok.mp applied
    obtain ⟨pending, others⟩ := ready_iff.mp ready
    exact ⟨index, pending, others, next, stepped, completes⟩

theorem pending_noteFailure (state : σ) (search : Serializing) :
    (noteFailure apply operations predecessors state search).pending = search.pending := by
  unfold noteFailure
  split_ifs <;> rfl

theorem findSerialization_decides {depth : Nat}
    (sized : search.pending.length = operations.length) (deep : search.remaining.card ≤ depth) :
    Decides (Completable apply operations predecessors search.remaining state) search
      (findSerialization apply operations predecessors depth state search) := by
  induction depth generalizing state search with
  | zero =>
    have none : search.remaining = ∅ := Finset.card_eq_zero.mp (Nat.le_zero.mp deep)
    rw [findSerialization, if_pos (by rw [remaining_eq_empty.mp none]; rfl), none]
    exact ⟨iff_of_true rfl ⟨[], .done⟩, fun _ => rfl⟩
  | succ depth ih =>
    rw [findSerialization]
    split_ifs with finished
    · have none : search.remaining = ∅ :=
        remaining_eq_empty.mpr (by simpa using finished)
      rw [none]
      exact ⟨iff_of_true rfl ⟨[], .done⟩, fun _ => rfl⟩
    · have some : search.remaining ≠ ∅ := fun none =>
        finished (by rw [remaining_eq_empty.mp none]; rfl)
      have placed : Decides
          (∃ index ∈ range operations.length, Leads apply operations predecessors state search index)
          search (placeEach apply operations predecessors
            (findSerialization apply operations predecessors depth) state
            (range operations.length) search) := by
        refine placeEach_decides (fun index pending next after same => ?_) _ rfl
        have left : after.remaining = search.remaining.erase index := by
          rw [remaining_congr same, remaining_place]
        rw [← left]
        refine ih ?_ ?_
        · rw [same, place, length_set, sized]
        · rw [left, Finset.card_erase_of_mem pending]
          exact Nat.sub_le_of_le_add deep
      rw [← completable_iff sized some] at placed
      cases result : placeEach apply operations predecessors
          (findSerialization apply operations predecessors depth) state
          (range operations.length) search with
      | mk found after =>
        rw [result] at placed
        cases found with
        | true => exact ⟨placed.found, nofun⟩
        | false =>
          exact ⟨placed.found, fun _ => (pending_noteFailure ..).trans (placed.restored rfl)⟩

/-! ## The oracle -/

/-- The operation ends, by the clocks of the journal, before the other begins. -/
def Precedes (journal : Journal) (earlier later : LinOperation) : Prop :=
  ∃ response invoke, journal.get earlier.response = some response ∧ journal.get later.invoke = some invoke ∧
    response.vectorClock.happensBefore invoke.vectorClock = true

/-- An order of all operations, by index, that respects which ended before which began and that the
specification accepts step by step. -/
structure Linearization (journal : Journal) (specification : SequentialSpec σ)
    (operations : List LinOperation) (order : List Nat) : Prop where
  permutes : order.Perm (range operations.length)
  realTime : order.Pairwise fun first second => ¬∃ earlier later, operations[second]? = some earlier ∧
    operations[first]? = some later ∧ Precedes journal earlier later
  accepted : (order.foldlM (specStep specification.apply operations) specification.initial).isSome

theorem operationClocks_eq (recorded : ∀ operation ∈ operations,
      (journal.get operation.invoke).isSome ∧ (journal.get operation.response).isSome) :
    ∃ clocks, operationClocks journal operations = .ok clocks ∧
      List.Forall₂ (fun operation clock => ∃ invoke response,
        journal.get operation.invoke = some invoke ∧ journal.get operation.response = some response ∧
        clock = (invoke.vectorClock, response.vectorClock)) operations clocks := by
  induction operations with
  | nil => exact ⟨[], rfl, .nil⟩
  | cons operation operations ih =>
    obtain ⟨present, others⟩ := forall_mem_cons.mp recorded
    obtain ⟨clocks, read, each⟩ := ih others
    obtain ⟨invoke, invoked⟩ := Option.isSome_iff_exists.mp present.1
    obtain ⟨response, responded⟩ := Option.isSome_iff_exists.mp present.2
    refine ⟨(invoke.vectorClock, response.vectorClock) :: clocks, ?_,
      .cons ⟨invoke, response, invoked, responded, rfl⟩ each⟩
    rw [operationClocks, invoked]
    simp only [responded, read]
    rfl

theorem mem_predecessorsOf {clocks : List (VectorClock × VectorClock)}
    (each : List.Forall₂ (fun (operation : LinOperation) clock => ∃ invoke response,
      journal.get operation.invoke = some invoke ∧ journal.get operation.response = some response ∧
      clock = (invoke.vectorClock, response.vectorClock)) operations clocks) {earlier later : Nat} :
    earlier ∈ (predecessorsOf clocks).getD later [] ↔ earlier ≠ later ∧
      ∃ first second, operations[earlier]? = some first ∧ operations[later]? = some second ∧
        Precedes journal first second := by
  have same := each.length_eq
  rw [getD_eq_getElem?_getD, predecessorsOf, getElem?_mapIdx]
  by_cases inside : later < clocks.length
  · rw [getElem?_eq_getElem inside, Option.map_some, Option.getD_some, mem_filter,
      mem_range, Bool.and_eq_true, decide_eq_true_eq]
    obtain ⟨invoke, _, invoked, _, clock⟩ := each.get (same ▸ inside) inside
    simp only [get_eq_getElem] at invoked clock
    rw [clock]
    by_cases listed : earlier < clocks.length
    · obtain ⟨_, response, _, responded, ended⟩ := each.get (same ▸ listed) listed
      simp only [get_eq_getElem] at responded ended
      rw [getElem?_eq_getElem listed, ended, getElem?_eq_getElem (same ▸ listed),
        getElem?_eq_getElem (same ▸ inside)]
      simp [listed, Precedes, invoked, responded]
    · have absent : operations[earlier]? = none := getElem?_eq_none (by omega)
      simp [listed, absent]
  · have absent : operations[later]? = none := getElem?_eq_none (by omega)
    have noClock : clocks[later]? = none := getElem?_eq_none (by omega)
    simp [absent, noClock]

theorem violated_rejection (oracle : LinearizabilityOracle σ) (operations : List LinOperation)
    (failure : LinFailure) : (oracle.rejection operations failure).violated = true := by
  unfold LinearizabilityOracle.rejection
  cases operations[failure.index]? <;> rfl

theorem perm_range_iff {order : List Nat} {count : Nat} :
    order.Perm (range count) ↔ order.Nodup ∧ order.toFinset = Finset.range count := by
  constructor
  · intro perm
    exact ⟨perm.nodup_iff.mpr nodup_range, by rw [toFinset_eq_of_perm _ _ perm, toFinset_range]⟩
  · rintro ⟨nodup, same⟩
    exact perm_of_nodup_nodup_toFinset_eq nodup nodup_range (by rw [same, toFinset_range])

theorem serializes_iff_linearization {specification : SequentialSpec σ}
    {clocks : List (VectorClock × VectorClock)}
    (each : List.Forall₂ (fun (operation : LinOperation) clock => ∃ invoke response,
      journal.get operation.invoke = some invoke ∧ journal.get operation.response = some response ∧
      clock = (invoke.vectorClock, response.vectorClock)) operations clocks) {order : List Nat} :
    Serializes (specStep specification.apply operations)
        (fun earlier later => earlier ∈ (predecessorsOf clocks).getD later [])
        (Finset.range operations.length) specification.initial order ↔
      Linearization journal specification operations order := by
  let before (earlier later : Nat) : Prop := earlier ∈ (predecessorsOf clocks).getD later []
  have irreflexive : ∀ index, ¬before index index := fun index before =>
    ((mem_predecessorsOf each).mp before).1 rfl
  refine (serializes_iff irreflexive).trans ?_
  constructor
  · rintro ⟨nodup, same, ordered, accepted⟩
    refine ⟨perm_range_iff.mpr ⟨nodup, same⟩, ?_, accepted⟩
    refine (nodup.and ordered).imp fun ⟨distinct, placed⟩ before => placed ?_
    exact (mem_predecessorsOf each).mpr ⟨distinct.symm, before⟩
  · rintro ⟨permutes, realTime, accepted⟩
    obtain ⟨nodup, same⟩ := perm_range_iff.mp permutes
    refine ⟨nodup, same, realTime.imp fun placed before => placed ?_, accepted⟩
    exact ((mem_predecessorsOf each).mp before).2

/-- Within the bound, and with every entry in the journal, no violation is reported exactly when the
operations can be linearized. -/
theorem checkOperations_sound_complete (oracle : LinearizabilityOracle σ) (journal : Journal)
    (operations : List LinOperation) (few : operations.length ≤ oracle.bound)
    (recorded : ∀ operation ∈ operations,
      (journal.get operation.invoke).isSome ∧ (journal.get operation.response).isSome) :
    (oracle.checkOperations journal operations).violated = false ↔
      ∃ order, Linearization journal oracle.specification operations order := by
  obtain ⟨clocks, read, each⟩ := operationClocks_eq recorded
  let start : Serializing :=
    { pending := operations.map fun _ => true, serialized := [], failure := none }
  have sized : start.pending.length = operations.length := length_map _
  have all : start.remaining = Finset.range operations.length := by
    refine Finset.filter_eq_self.mpr (fun index member => ?_) |>.trans (by rw [sized])
    have inside := Finset.mem_range.mp member
    rw [isPending, getD_eq_getElem _ _ inside]
    exact getElem_map ..
  have decides : Decides _ start (findSerialization oracle.specification.apply operations
      (predecessorsOf clocks) operations.length oracle.specification.initial start) :=
    findSerialization_decides sized (by rw [all, Finset.card_range])
  rw [all] at decides
  rw [LinearizabilityOracle.checkOperations, if_neg (Nat.not_lt.mpr few), read]
  simp only
  have possible := decides.found.trans (exists_congr fun order => serializes_iff_linearization each)
  cases result : findSerialization oracle.specification.apply operations (predecessorsOf clocks)
      operations.length oracle.specification.initial start with
  | mk found after =>
    rw [result] at possible
    cases found with
    | true => exact iff_of_true rfl (possible.mp rfl)
    | false =>
      rw [violated_rejection]
      exact iff_of_false (by decide) fun linearizes =>
        Bool.false_ne_true (possible.mpr linearizes)

def registerSpec : SequentialSpec UInt64 where
  initial := 0
  apply
    | _, .write _ value _ => .ok value
    | state, .read _ value _ =>
      if state = value then .ok state else .error "stale read"
    | state, _ => .ok state

def readings : List UInt64 → Journal
  | [] => .new
  | ticks :: earlier =>
    (Journal.append checksum false .clockRead ⟨1⟩ [] (.clockRead ticks) (readings earlier)).2

/-- A write that ended before a read began, by the entries of `readings`. -/
def writeThenRead (value : UInt64) : List LinOperation :=
  let ids := (readings [4, 3, 2, 1]).ids
  let id (index : Nat) : EntryHash := ids.getD index (checksum [])
  [⟨id 0, id 1, .write "k" 7 (id 0)⟩, ⟨id 2, id 3, .read "k" value (id 2)⟩]

theorem writeThenRead_linearizable :
    (∃ order, Linearization (readings [4, 3, 2, 1]) registerSpec (writeThenRead 7) order) ∧
      ¬∃ order, Linearization (readings [4, 3, 2, 1]) registerSpec (writeThenRead 0) order := by
  let oracle := LinearizabilityOracle.new registerSpec fun _ => ""
  constructor
  · exact (checkOperations_sound_complete oracle _ (writeThenRead 7) (by decide) (by decide +kernel)).mp
      (by decide +kernel)
  · intro linearizes
    have unviolated := (checkOperations_sound_complete oracle _ (writeThenRead 0) (by decide)
      (by decide +kernel)).mpr linearizes
    have violated : (oracle.checkOperations (readings [4, 3, 2, 1]) (writeThenRead 0)).violated = true := by
      decide +kernel
    rw [unviolated] at violated
    cases violated

end Ldgr.Explorer
