import Ldgr.Sim.DurableNames

/-! The resident total of a storage whose files grow. A write is charged one new range, but one inside
a cached range leaves three. -/

namespace Ldgr.Sim

open Base Format List SimFs StorageCall

def Placed.cost (placed : Placed) : Nat :=
  placed.2.content.length + rangeOverhead

namespace File

def cost (file : File) : Nat :=
  (file.cache.entries.map Placed.cost).sum

/-- The window lies in a cached range and leaves bytes of it on both sides. -/
def SplitBy (file : File) (start stop : Nat) : Prop :=
  ∃ placed : Placed, placed ∈ file.cache.entries ∧ placed.1 < start ∧ stop < placed.finish

theorem cost_leftovers_le {start stop : Nat} {placed : Placed}
    (edge : ¬(placed.1 < start ∧ stop < placed.finish)) :
    ((leftovers start stop placed).map Placed.cost).sum ≤ placed.cost := by
  unfold leftovers remains
  split_ifs with cut before after after
  · exact absurd ⟨before, after.1⟩ edge
  all_goals simp [Placed.cost]

theorem cost_leftovers_of_inside {start stop : Nat} {placed : Placed} (window : start < stop)
    (before : placed.1 < start) (after : stop < placed.finish) :
    ((leftovers start stop placed).map Placed.cost).sum + (stop - start) =
      placed.cost + rangeOverhead := by
  have cut : placed.1 < max stop 1 ∧ start < placed.finish := by omega
  have tail : stop < placed.finish ∧ stop - placed.1 < placed.2.content.length := by
    unfold Placed.finish at *
    omega
  simp only [leftovers, if_pos cut, remains, if_pos before, if_pos tail, Placed.cost, map_append,
    map_singleton, sum_append, sum_singleton, length_take, length_drop]
  omega

section Write

variable {file : File} (tiled : Extent.Tiled file.extents) (offset : Nat) {content : Bytes}
  (some : content ≠ []) (id : EntryHash)

include tiled some

theorem cost_write : (file.write offset content id).cost = content.length + rangeOverhead +
    (file.cache.entries.map fun placed =>
      ((leftovers offset (offset + content.length) placed).map Placed.cost).sum).sum := by
  have window : offset < offset + content.length :=
    Nat.lt_add_of_pos_right (length_pos_iff.mpr some)
  let written : Placed := (offset, ⟨content, id, .dirty⟩)
  let parts := file.cache.entries.flatMap (leftovers offset (offset + content.length))
  have fresh : written ∉ parts := by
    intro member
    obtain ⟨present, inside, part⟩ := mem_flatMap.mp member
    exact leftovers_ne tiled offset some inside part rfl
  have arranged : (file.write offset content id).cache.entries.Perm (written :: parts) := by
    refine (perm_ext_iff_of_nodup (List.Pairwise.imp (fun below same => ?_)
      (file.write offset content id).cache.ascending)
      (nodup_cons.mpr ⟨fresh, (pairwise_leftovers tiled window).imp fun below same => ?_⟩)).mpr
      fun placed => ?_
    · exact below.ne (congrArg Prod.fst same)
    · exact below.ne (congrArg Prod.fst same)
    · rw [write, SortedMap.mem_insert, mem_splitAround tiled window, mem_cons, mem_flatMap]
      refine or_congr Iff.rfl (and_iff_right_of_imp fun member => ?_)
      obtain ⟨present, inside, part⟩ := member
      exact leftovers_ne tiled offset some inside part
  rw [cost, (arranged.map _).sum_eq, map_cons, sum_cons, map_flatMap, List.flatMap, sum_flatten, map_map]
  rfl

theorem cost_write_le (edge : ¬file.SplitBy offset (offset + content.length)) :
    (file.write offset content id).cost ≤ file.cost + content.length + rangeOverhead := by
  have kept : _ ≤ file.cost := sum_le_sum fun placed inside =>
    cost_leftovers_le fun within => edge ⟨placed, inside, within⟩
  rw [cost_write tiled offset some id]
  omega

theorem cost_write_of_splitBy (split : file.SplitBy offset (offset + content.length)) :
    (file.write offset content id).cost = file.cost + 2 * rangeOverhead := by
  obtain ⟨placed, inside, before, after⟩ := split
  have size := length_pos_iff.mpr some
  obtain ⟨front, back, entries⟩ := append_of_mem inside
  -- The ranges around the split one end before the window or start after it.
  have spared {other : Placed} (member : other ∈ file.cache.entries) (apart : other.1 ≠ placed.1) :
      ((leftovers offset (offset + content.length) other).map Placed.cost).sum = other.cost := by
    have outside : ¬(other.1 < max (offset + content.length) 1 ∧ offset < other.finish) := by
      obtain below | above := Nat.lt_or_gt_of_ne apart
      · have := finish_le tiled member inside below
        omega
      · have := finish_le tiled inside member above
        omega
    rw [leftovers, if_neg outside, map_singleton, sum_singleton]
  have ordered := file.cache.ascending
  rw [entries, pairwise_append, pairwise_cons] at ordered
  have left : front.map (fun other =>
      ((leftovers offset (offset + content.length) other).map Placed.cost).sum) =
        front.map Placed.cost :=
    map_congr_left fun other member => spared (by simp [entries, member])
      (ordered.2.2 other member placed mem_cons_self).ne
  have right : back.map (fun other =>
      ((leftovers offset (offset + content.length) other).map Placed.cost).sum) =
        back.map Placed.cost :=
    map_congr_left fun other member => spared (by simp [entries, member]) (ordered.2.1.1 other member).ne'
  have middle := cost_leftovers_of_inside (by omega) before after
  rw [cost_write tiled offset some id, cost, entries]
  simp only [map_append, map_cons, sum_append, sum_cons, left, right]
  omega

end Write

end File

namespace SimFs

theorem charged_eq (fs : SimFs) (bytes ranges paths : Nat) : fs.charged bytes ranges paths =
    (fs.files.entries.map fun entry => entry.2.cost + pathOverhead).sum + bytes +
      ranges * rangeOverhead + paths * pathOverhead := by
  have range (entries : List (Nat × ByteRange)) : (entries.map Placed.cost).sum =
      (entries.map fun entry => entry.2.content.length).sum + entries.length * rangeOverhead := by
    induction entries with
    | nil => rfl
    | cons head tail ih =>
      simp only [map_cons, sum_cons, ih, Placed.cost, length_cons, Nat.add_mul]
      omega
  unfold charged
  induction fs.files.entries with
  | nil => simp
  | cons head tail ih =>
    simp only [map_cons, sum_cons, length_cons, Nat.add_mul, File.cost, range] at ih ⊢
    omega

theorem charged_setFile (fs : SimFs) (key : String) (file : File) : (fs.setFile key file).charged 0 0 0 +
        ((fs.files.lookup key).map fun old => old.cost + pathOverhead).getD 0 =
      fs.charged 0 0 0 + (file.cost + pathOverhead) := by
  have total := SortedMap.sum_insert (fun file => file.cost + pathOverhead) fs.files key file
  rw [charged_eq, charged_eq]
  simpa [setFile] using total

theorem chargeResident_eq_ok {fs : SimFs} {budget : Nat} (limited : fs.maxResidentBytes = some budget)
    (bytes : Nat) (range path : Bool) : fs.chargeResident bytes range path = .ok () ↔
      fs.charged bytes range.toNat path.toNat ≤ budget := by
  simp [chargeResident, limited]

end SimFs

namespace StorageCall

/-- A call that can only add to the storage. -/
def Grows : StorageCall → Prop
  | writeBytes .. | allocate .. => True
  | _ => False

/-- The call writes inside one cached range and leaves bytes of it on both sides. -/
def Splits (fs : SimFs) : StorageCall → Prop
  | writeBytes _ path offset content => content ≠ [] ∧ ∃ file, fs.files.lookup (canonicalKey path) = some file ∧
        file.SplitBy offset.toNat (offset.toNat + content.length)
  | _ => False

variable {fs : SimFs} (sound : fs.Sound) {call : StorageCall}

theorem maxResidentBytes_effect (grows : call.Grows) (id : EntryHash) :
    (call.effect id fs).maxResidentBytes = fs.maxResidentBytes := by
  cases call with
  | writeBytes actor path offset content =>
    simp only [effect, applyWrite, noteJournaled]
    split_ifs <;> rfl
  | allocate actor path => rfl
  | rename | fsync => cases grows
  | fsyncPath => cases grows

theorem charged_applyWrite (path : String) (offset : Nat) (content : Bytes) (id : EntryHash) :
    (fs.applyWrite path offset content id).charged 0 0 0 = (fs.setFile (canonicalKey path)
        ((fs.fileFor (canonicalKey path) id).write offset content id)).charged 0 0 0 := by
  simp only [applyWrite, noteJournaled]
  split_ifs <;> rfl

include sound

theorem charged_effect_of_splits (splits : call.Splits fs) (id : EntryHash) :
    (call.effect id fs).charged 0 0 0 = fs.charged 0 2 0 := by
  cases call with
  | writeBytes actor path offset content =>
    obtain ⟨some, file, found, split⟩ := splits
    have total := fs.charged_setFile (canonicalKey path)
      ((fs.fileFor (canonicalKey path) id).write offset.toNat content id)
    rw [fileFor_of_some found, found, File.cost_write_of_splitBy (sound.files _ file found).tiled _
      some id split, Option.map_some, Option.getD_some] at total
    rw [effect, if_neg (by simpa using some), charged_applyWrite, fileFor_of_some found, fs.charged_eq 0 2 0]
    rw [fs.charged_eq] at total
    omega
  | allocate | rename => cases splits
  | fsync | fsyncPath => cases splits

theorem charged_effect_le {budget : Nat} (limited : fs.maxResidentBytes = some budget)
    (within : fs.charged 0 0 0 ≤ budget) (grows : call.Grows) (checked : call.check fs = .ok ())
    (whole : ¬call.Splits fs) (id : EntryHash) : (call.effect id fs).charged 0 0 0 ≤ budget := by
  cases call with
  | writeBytes actor path offset content =>
    by_cases some : content = []
    · simpa [effect, some] using within
    · have total := fs.charged_setFile (canonicalKey path)
        ((fs.fileFor (canonicalKey path) id).write offset.toNat content id)
      simp only [check, SimFs.checkWrite] at checked
      split_ifs at checked
      have allowed := (SimFs.chargeResident_eq_ok limited _ _ _).mp checked
      rw [effect, if_neg (by simpa using some), charged_applyWrite]
      have positive : decide (0 < content.length) = true := by simpa [length_pos_iff] using some
      rw [positive, Bool.or_true, fs.charged_eq] at allowed
      rw [fs.charged_eq] at total
      cases found : fs.files.lookup (canonicalKey path) with
      | none =>
        have cost := File.cost_write_le (sound_fileFor sound path id).tiled offset.toNat some id
          (by simp [fileFor_of_none found, File.SplitBy, File.default, SortedMap.empty])
        have empty : (fs.fileFor (canonicalKey path) id).cost = 0 := by
          rw [fileFor_of_none found]
          rfl
        simp [SimFs.contains, found] at allowed total
        omega
      | some file =>
        have cost := File.cost_write_le (sound.files _ file found).tiled offset.toNat some id
          fun split => whole ⟨some, file, found, split⟩
        simp [SimFs.contains, found, fileFor_of_some found] at allowed total ⊢
        omega
  | allocate actor path =>
    simp only [check] at checked
    split_ifs at checked with present
    have allowed := (SimFs.chargeResident_eq_ok limited _ _ _).mp checked
    have total := fs.charged_setFile (canonicalKey path) { File.default with createdBy := some id }
    have empty : ({ File.default with createdBy := some id } : File).cost = 0 := rfl
    rw [fs.charged_eq] at allowed total
    simp [empty] at allowed total
    simp only [effect]
    omega
  | rename | fsync => cases grows
  | fsyncPath => cases grows

end StorageCall

section Runs

variable (blake3 : Bytes → EntryHash) (journal : Journal) (features : Features) (maxFileExtent : Nat)
  (mode : JournalingMode)

/-- The total stays in the budget after every call exactly if there is room for two more ranges at every
write that goes through and splits one. -/
theorem resident_bounded_iff (budget : Nat) (calls : List { call : StorageCall // call.Grows }) :
    let start := (fresh journal features maxFileExtent (some budget) mode).1
    let step (state : Journal × SimFs) (call : { call : StorageCall // call.Grows }) :=
      (call.1.perform blake3 state).2
    (∀ done rest, calls = done ++ rest → (done.foldl step start).2.charged 0 0 0 ≤ budget) ↔
      ∀ done call rest, calls = done ++ call :: rest →
        let state := done.foldl step start
        ∀ entry, call.1.Passes blake3 state.1 state.2 entry → call.1.Splits state.2 →
          state.2.charged 0 2 0 ≤ budget := by
  intro start step
  let Limited (state : Journal × SimFs) := state.2.Sound ∧ state.2.maxResidentBytes = some budget
  have kept (state : Journal × SimFs) (call : { call : StorageCall // call.Grows })
      (limited : Limited state) : Limited (step state call) := by
    refine ⟨call.1.sound_perform limited.1, ?_⟩
    by_cases passes : ∃ entry, call.1.Passes blake3 state.1 state.2 entry
    · obtain ⟨entry, passes⟩ := passes
      have done := congrArg (·.2.2.maxResidentBytes) (perform_of_passes passes)
      exact done.trans ((maxResidentBytes_effect call.2 entry.id).trans limited.2)
    · obtain ⟨fault, failed⟩ := perform_of_not_passes (not_exists.mp passes)
      exact (congrArg (·.2.2.maxResidentBytes) failed).trans limited.2
  have each (state : Journal × SimFs) (call : { call : StorageCall // call.Grows })
      (limited : Limited state) (within : state.2.charged 0 0 0 ≤ budget) :
      (step state call).2.charged 0 0 0 ≤ budget ↔
        ∀ entry, call.1.Passes blake3 state.1 state.2 entry → call.1.Splits state.2 →
          state.2.charged 0 2 0 ≤ budget := by
    by_cases passes : ∃ entry, call.1.Passes blake3 state.1 state.2 entry
    · obtain ⟨entry, passes⟩ := passes
      have done : (step state call).2 = call.1.effect entry.id state.2 :=
        congrArg (·.2.2) (perform_of_passes passes)
      rw [done]
      by_cases splits : call.1.Splits state.2
      · rw [charged_effect_of_splits limited.1 splits]
        exact ⟨fun room _ _ _ => room, fun room => room entry passes splits⟩
      · exact iff_of_true (charged_effect_le limited.1 limited.2 within call.2
          passes.checked splits entry.id) fun _ _ split => absurd split splits
    · have stopped := not_exists.mp passes
      obtain ⟨fault, failed⟩ := perform_of_not_passes stopped
      have same : (step state call).2 = state.2 := congrArg (·.2.2) failed
      rw [same]
      exact iff_of_true within fun entry passes => absurd passes (stopped entry)
  exact prefixes_iff kept each ⟨sound_fresh journal features maxFileExtent (some budget) mode, rfl⟩
    (Nat.zero_le budget) calls

/-- Three bytes and one written over the middle one: two ranges are charged, three are cached. -/
theorem split_exceeds :
    let calls : List StorageCall := [.writeBytes ⟨0⟩ "/a" 0 [1, 2, 3], .writeBytes ⟨0⟩ "/a" 1 [9]]
    let state := calls.foldl (fun state call => (call.perform checksum state).2)
      (fresh .new ⟨false⟩ 16 (some 260) .data).1
    state.1.entries.length = 2 ∧ state.2.charged 0 0 0 = 323 := by
  decide +kernel

end Runs

end Ldgr.Sim
