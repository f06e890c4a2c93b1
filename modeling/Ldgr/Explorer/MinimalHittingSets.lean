import Ldgr.Explorer.HittingSet

/-! The candidates after each path are the minimal sets that hit the paths so far: each of them hits,
every set that hits contains one of them, and none lies within another. -/

namespace Ldgr.Explorer

open Format List

variable {sets kept candidates : List (List EntryHash)} {paths : List (List FaultableEvent)}

/-- The set has an event of every path. -/
def HitsPaths (paths : List (List FaultableEvent)) (hitting : Set EntryHash) : Prop :=
  ∀ path ∈ paths, ∃ event ∈ path, event.event ∈ hitting

/-! ## Pruning -/

theorem mem_destutter'_ne {α : Type} [DecidableEq α] {first item : α} {items : List α} :
    item ∈ items.destutter' (· ≠ ·) first ↔ item = first ∨ item ∈ items := by
  induction items generalizing first with
  | nil => simp
  | cons next items ih =>
    by_cases same : first = next
    · rw [destutter'_cons_neg _ (not_not.mpr same), ih, same, mem_cons, or_self_left]
    · rw [destutter'_cons_pos _ same, mem_cons, ih, mem_cons]

theorem mem_sortDedup {set : List EntryHash} : set ∈ sortDedup sets ↔ set ∈ sets := by
  have sorted : set ∈ sets.insertionSort (· ≤ ·) ↔ set ∈ sets := mem_insertionSort _
  rw [sortDedup, ← sorted]
  cases sets.insertionSort (· ≤ ·) with
  | nil => rfl
  | cons first rest => rw [destutter_cons', mem_destutter'_ne, mem_cons]

def Apart (left right : List EntryHash) : Prop :=
  ¬left ⊆ right ∧ ¬right ⊆ left

instance : Std.Symm Apart :=
  ⟨fun _ _ => And.symm⟩

/-- Of the sets, those are kept that no other one lies within. -/
structure Prunes (sets kept : List (List EntryHash)) : Prop where
  listed : kept ⊆ sets
  within : ∀ set ∈ sets, ∃ least ∈ kept, least ⊆ set
  apart : kept.Pairwise Apart

theorem Prunes.keepMinimal (prunes : Prunes sets kept) (set : List EntryHash) :
    Prunes (sets ++ [set]) (keepMinimal kept set) := by
  unfold Explorer.keepMinimal
  simp only [any_eq_true, all_eq_true, decide_eq_true_eq]
  split_ifs with covered
  · exact ⟨subset_append_of_subset_left _ prunes.listed,
      forall_mem_append.mpr ⟨prunes.within, forall_mem_singleton.mpr covered⟩, prunes.apart⟩
  · refine ⟨append_subset.mpr ⟨?_, subset_append_right _ _⟩, forall_mem_append.mpr ⟨?_, ?_⟩, ?_⟩
    · exact subset_append_of_subset_left _ (Subset.trans (filter_subset_self _) prunes.listed)
    · intro other member
      obtain ⟨least, stays, inside⟩ := prunes.within other member
      by_cases smaller : set.all (· ∈ least) = true
      · exact ⟨set, mem_append_right _ (mem_singleton_self _), fun id here =>
          inside (of_decide_eq_true (all_eq_true.mp smaller id here))⟩
      · exact ⟨least, mem_append_left _ (mem_filter.mpr ⟨stays, by simpa using smaller⟩), inside⟩
    · exact forall_mem_singleton.mpr ⟨set, mem_append_right _ (mem_singleton_self _), Subset.refl _⟩
    · refine pairwise_append.mpr ⟨prunes.apart.filter _, pairwise_singleton _ _, ?_⟩
      intro least member _ last
      cases mem_singleton.mp last
      obtain ⟨stays, larger⟩ := mem_filter.mp member
      refine ⟨fun inside => covered ⟨least, stays, inside⟩, fun inside => ?_⟩
      simp [all_eq_true.mpr fun id here => decide_eq_true (inside here)] at larger

theorem prunes_foldl (sets : List (List EntryHash)) : Prunes sets (sets.foldl keepMinimal []) := by
  induction sets using reverseRecOn with
  | nil => exact ⟨Subset.refl _, forall_mem_nil _, .nil⟩
  | append_singleton sets set ih =>
    rw [foldl_append]
    exact ih.keepMinimal set

theorem prunes_pruneSupersets (sets : List (List EntryHash)) : Prunes sets (pruneSupersets sets) := by
  have prunes := prunes_foldl ((sortDedup sets).insertionSort fun left right => left.length ≤ right.length)
  have sorted : (pruneSupersets sets).Perm _ := perm_insertionSort (· ≤ ·) _
  refine ⟨fun set member => ?_, fun set member => ?_, ?_⟩
  · exact mem_sortDedup.mp ((mem_insertionSort _).mp (prunes.listed (sorted.mem_iff.mp member)))
  · obtain ⟨least, stays, inside⟩ :=
      prunes.within set ((mem_insertionSort _).mpr (mem_sortDedup.mpr member))
    exact ⟨least, sorted.mem_iff.mpr stays, inside⟩
  · exact sorted.symm.pairwise prunes.apart fun before => before.symm

/-! ## Candidates -/

/-- The candidates hit the paths, and every set that hits them contains a candidate. -/
structure Covers (paths : List (List FaultableEvent)) (candidates : List (List EntryHash)) : Prop where
  ascending : ∀ set ∈ candidates, set.Pairwise (· < ·)
  hits : ∀ set ∈ candidates, HitsPaths paths { id | id ∈ set }
  within : ∀ hitting, HitsPaths paths hitting → ∃ set ∈ candidates, ∀ id ∈ set, id ∈ hitting

theorem mem_sortedSet {ids : List EntryHash} {id : EntryHash} : id ∈ sortedSet ids ↔ id ∈ ids := by
  rw [sortedSet, mem_insertionSort, mem_dedup]

theorem ascending_orderedInsert {set : List EntryHash} {event : EntryHash}
    (ascending : set.Pairwise (· < ·)) (fresh : event ∉ set) :
    (set.orderedInsert (· ≤ ·) event).Pairwise (· < ·) := by
  have nodup : (set.orderedInsert (· ≤ ·) event).Nodup := (perm_orderedInsert _ event set).nodup_iff.mpr
    (nodup_cons.mpr ⟨fresh, ascending.imp fun less => less.ne⟩)
  have sorted := (ascending.imp fun less => less.le).orderedInsert event set
  exact (sorted.and nodup).imp fun both => lt_of_le_of_ne both.1 both.2

theorem Covers.expand (covers : Covers paths candidates) (path : List FaultableEvent) : Covers (paths ++ [path])
      (candidates.flatMap (expandCandidate (sortedSet (path.map (·.event))))) := by
  have known {set : List EntryHash}
      (member : set ∈ candidates.flatMap (expandCandidate (sortedSet (path.map (·.event))))) :
      set.Pairwise (· < ·) ∧ HitsPaths (paths ++ [path]) { id | id ∈ set } := by
    obtain ⟨candidate, listed, expanded⟩ := mem_flatMap.mp member
    have ascending := covers.ascending candidate listed
    have hits := covers.hits candidate listed
    unfold expandCandidate at expanded
    split_ifs at expanded with hit
    · cases mem_singleton.mp expanded
      refine ⟨ascending, forall_mem_append.mpr ⟨hits, forall_mem_singleton.mpr ?_⟩⟩
      simpa [mem_sortedSet, and_comm] using hit
    · obtain ⟨event, inPath, rfl⟩ := mem_map.mp expanded
      have fresh : event ∉ candidate := fun inside =>
        hit (any_eq_true.mpr ⟨event, inside, decide_eq_true inPath⟩)
      refine ⟨ascending_orderedInsert ascending fresh,
        forall_mem_append.mpr ⟨fun other member => ?_, forall_mem_singleton.mpr ?_⟩⟩
      · obtain ⟨found, onPath, inside⟩ := hits other member
        exact ⟨found, onPath, (mem_orderedInsert _).mpr (.inr inside)⟩
      · obtain ⟨found, onPath, rfl⟩ := mem_map.mp (mem_sortedSet.mp inPath)
        exact ⟨found, onPath, (mem_orderedInsert _).mpr (.inl rfl)⟩
  refine ⟨fun set member => (known member).1, fun set member => (known member).2, ?_⟩
  intro hitting hits
  obtain ⟨earlier, last⟩ := forall_mem_append.mp hits
  obtain ⟨candidate, listed, inside⟩ := covers.within hitting earlier
  by_cases hit : candidate.any (· ∈ sortedSet (path.map (·.event))) = true
  · refine ⟨candidate, mem_flatMap.mpr ⟨candidate, listed, ?_⟩, inside⟩
    rw [expandCandidate, if_pos hit]
    exact mem_singleton_self _
  · obtain ⟨event, onPath, taken⟩ := forall_mem_singleton.mp last
    refine ⟨candidate.orderedInsert (· ≤ ·) event.event, mem_flatMap.mpr ⟨candidate, listed, ?_⟩, ?_⟩
    · rw [expandCandidate, if_neg hit]
      exact mem_map_of_mem (mem_sortedSet.mpr (mem_map_of_mem onPath))
    · intro id member
      obtain rfl | before := (mem_orderedInsert _).mp member
      · exact taken
      · exact inside id before

theorem Covers.prune (covers : Covers paths candidates) : Covers paths (pruneSupersets candidates) := by
  have prunes := prunes_pruneSupersets candidates
  refine ⟨fun set member => covers.ascending set (prunes.listed member),
    fun set member => covers.hits set (prunes.listed member), fun hitting hits => ?_⟩
  obtain ⟨set, listed, inside⟩ := covers.within hitting hits
  obtain ⟨least, stays, smaller⟩ := prunes.within set listed
  exact ⟨least, stays, fun id member => inside id (smaller member)⟩

/-- The state between two paths. -/
structure Enumerates (paths : List (List FaultableEvent)) (candidates : List (List EntryHash)) : Prop
    extends Covers paths candidates where
  sorted : candidates.Pairwise (· ≤ ·)
  apart : candidates.Pairwise Apart

theorem Enumerates.foldlM {done : List (List FaultableEvent)} (enumerates : Enumerates done candidates)
    (computed : paths.foldlM hitPath candidates = .ok sets) : Enumerates (done ++ paths) sets := by
  induction paths generalizing done candidates with
  | nil =>
    cases computed
    rwa [append_nil]
  | cons path paths ih =>
    rw [foldlM_cons] at computed
    obtain ⟨next, step, rest⟩ := Base.except_bind_eq_ok.mp computed
    unfold hitPath at step
    dsimp only at step
    split_ifs at step
    cases step
    have following := ih ⟨(enumerates.toCovers.expand path).prune, pairwise_insertionSort _ _,
      (prunes_pruneSupersets _).apart⟩ rest
    rwa [append_assoc] at following

/-- The result lists the inclusion-minimal hitting sets of the paths, each of them once and in
lexicographic order. -/
theorem computeMinimalHittingSets_minimal (paths : List (List FaultableEvent))
    (sets : List (List EntryHash)) (computed : computeMinimalHittingSets paths = .ok sets) :
    (∀ hitting, Minimal (HitsPaths paths) hitting ↔ ∃ set ∈ sets, { id | id ∈ set } = hitting) ∧
      (∀ set ∈ sets, set.Pairwise (· < ·)) ∧ sets.Pairwise (· < ·) := by
  have start : Enumerates [] [[]] :=
    { ascending := by simp
      hits := by simp [HitsPaths]
      within := fun hitting _ => ⟨[], mem_singleton_self _, forall_mem_nil _⟩
      sorted := pairwise_singleton _ _
      apart := pairwise_singleton _ _ }
  unfold computeMinimalHittingSets at computed
  split_ifs at computed
  have enumerates := start.foldlM computed
  rw [nil_append] at enumerates
  refine ⟨fun hitting => ⟨fun minimal => ?_, ?_⟩, enumerates.ascending,
    (enumerates.sorted.and enumerates.apart).imp fun both =>
      lt_of_le_of_ne both.1 fun same => both.2.1 (same ▸ Subset.refl _)⟩
  · obtain ⟨least, stays, below⟩ := enumerates.within hitting minimal.prop
    exact ⟨least, stays, Set.Subset.antisymm below (minimal.le_of_le (enumerates.hits least stays) below)⟩
  · rintro ⟨set, member, rfl⟩
    refine ⟨enumerates.hits set member, fun smaller hits inside => ?_⟩
    obtain ⟨least, stays, below⟩ := enumerates.within smaller hits
    have nested : least ⊆ set := fun id here => inside (below id here)
    -- No candidate lies within another one.
    obtain rfl : least = set := by
      by_contra differs
      exact (enumerates.apart.forall stays member differs).1 nested
    exact below

def sampleEvent (byte : UInt8) : FaultableEvent :=
  { event := ⟨⟨List.replicate 32 byte, Base.length_repeated byte⟩⟩, kind := .send, cost := 2 }

/-- Two paths that share an event: it alone is enough, and so are the two others together. -/
def samplePaths : List (List FaultableEvent) :=
  [[sampleEvent 1, sampleEvent 2], [sampleEvent 2, sampleEvent 3]]

theorem samplePaths_minimal : Minimal (HitsPaths samplePaths) { id | id ∈ [(sampleEvent 2).event] } :=
  ((computeMinimalHittingSets_minimal samplePaths
    [[(sampleEvent 1).event, (sampleEvent 3).event], [(sampleEvent 2).event]] (by decide +kernel)).1 _).mpr
    ⟨_, by simp, rfl⟩

end Ldgr.Explorer
