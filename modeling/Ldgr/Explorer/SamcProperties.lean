import Ldgr.Explorer.HittingSet

/-! Pruning by concurrent swaps goes through the hypotheses in sorted order, so what a kept one makes
redundant comes after it. -/

namespace Ldgr.Explorer.FaultHypothesis

open Format List

variable {journal : Journal} {hypothesis least : FaultHypothesis}
  {hypotheses done kept rest : List FaultHypothesis}

/-! ## Order -/

def Precedes (left right : FaultHypothesis) : Prop :=
  (compareHypotheses left right).isLE

instance : DecidableRel Precedes := fun left right =>
  inferInstanceAs (Decidable ((compareHypotheses left right).isLE = true))

instance : Std.LawfulEqOrd EntryHash :=
  ⟨compare_eq_iff_eq.mp⟩

instance : Std.TransCmp compareHypotheses :=
  inferInstanceAs (Std.TransCmp (compareLex (compareLex (compareOn totalCost)
    (compareOn fun hypothesis : FaultHypothesis => hypothesis.events.length)) (compareOn events)))

instance : IsTrans FaultHypothesis Precedes :=
  ⟨fun _ _ _ => Std.TransCmp.isLE_trans⟩

instance : Std.Total Precedes where
  total left right := by
    have swapped : compareHypotheses right left = (compareHypotheses left right).swap :=
      Std.OrientedCmp.eq_swap
    rw [Precedes, Precedes, swapped]
    cases compareHypotheses left right <;> simp

theorem Precedes.totalCost_le (precedes : least.Precedes hypothesis) :
    least.totalCost ≤ hypothesis.totalCost := by
  rw [Precedes, compareHypotheses, Ordering.isLE_then_iff_and, Ordering.isLE_then_iff_and] at precedes
  exact Std.isLE_compare.mp precedes.1.1

/-- A hypothesis without its text. -/
def bare (hypothesis : FaultHypothesis) : FaultHypothesis :=
  { hypothesis with explanation := "" }

theorem Precedes.antisymm (precedes : least.Precedes hypothesis) (follows : hypothesis.Precedes least) :
    least.bare = hypothesis.bare := by
  have same := Std.OrientedCmp.isLE_antisymm precedes follows
  rw [compareHypotheses, Ordering.then_eq_eq, Ordering.then_eq_eq] at same
  obtain ⟨⟨cost, -⟩, events⟩ := same
  rw [bare, bare, Std.compare_eq_iff_eq.mp cost, Std.compare_eq_iff_eq.mp events]

/-! ## Pruning -/

/-- The two differ in one event each, and these are concurrent. -/
def Exchanges (journal : Journal) (least hypothesis : FaultHypothesis) : Prop :=
  ∃ left right before after, journal.get left = some before ∧ journal.get right = some after ∧
    before.vectorClock.concurrentWith after.vectorClock = true ∧
    (∀ event, event ∈ least.events ∧ event ∉ hypothesis.events ↔ event = left) ∧
    ∀ event, event ∈ hypothesis.events ∧ event ∉ least.events ↔ event = right

/-- The hypothesis is not kept beside `least`. -/
def Subsumes (journal : Journal) (least hypothesis : FaultHypothesis) : Prop :=
  least.events = hypothesis.events ∨ swapsConcurrent journal least hypothesis = true

theorem mem_difference {ours theirs : List EntryHash} {left : EntryHash}
    (only : ours.filter (· ∉ theirs) = [left]) (event : EntryHash) :
    event ∈ ours ∧ event ∉ theirs ↔ event = left := by
  rw [← mem_singleton, ← only, mem_filter, decide_eq_true_eq]

theorem Subsumes.exchanges (subsumes : Subsumes journal least hypothesis) :
    least.events.length = hypothesis.events.length ∧
      (least.events = hypothesis.events ∨ Exchanges journal least hypothesis) := by
  cases subsumes with
  | inl same => exact ⟨congrArg length same, .inl same⟩
  | inr swaps =>
    unfold swapsConcurrent at swaps
    rw [Bool.and_eq_true, beq_iff_eq] at swaps
    obtain ⟨size, swaps⟩ := swaps
    refine ⟨size, .inr ?_⟩
    split at swaps
    next left right ours theirs =>
      split at swaps
      next before after found found' =>
        exact ⟨left, right, before, after, found, found', swaps, mem_difference ours, mem_difference theirs⟩
      next => cases swaps
    next => cases swaps

theorem pruneInto_cases (journal : Journal) (kept : List FaultHypothesis) (hypothesis : FaultHypothesis) :
    (∃ least ∈ kept, Subsumes journal least hypothesis) ∧ pruneInto journal kept hypothesis = kept ∨
      (∀ least ∈ kept, ¬Subsumes journal least hypothesis) ∧
        pruneInto journal kept hypothesis = kept ++ [hypothesis] := by
  have found : (kept.any (swapsConcurrent journal · hypothesis) ||
      kept.any (·.events = hypothesis.events)) = true ↔
      ∃ least ∈ kept, Subsumes journal least hypothesis := by
    simp only [Bool.or_eq_true, any_eq_true, decide_eq_true_eq, Subsumes, and_or_left, exists_or]
    exact or_comm
  unfold pruneInto
  split_ifs with redundant
  · exact .inl ⟨found.mp redundant, rfl⟩
  · exact .inr ⟨fun least member subsumes => redundant (found.mpr ⟨least, member, subsumes⟩), rfl⟩

/-- The hypotheses gone through so far and those kept of them. -/
structure Pruned (journal : Journal) (done kept : List FaultHypothesis) : Prop where
  listed : kept <+ done
  represented : ∀ hypothesis ∈ done, ∃ least ∈ kept, least.Precedes hypothesis ∧ Subsumes journal least hypothesis
  apart : kept.Pairwise fun least hypothesis => ¬Subsumes journal least hypothesis

theorem Pruned.pruneInto (pruned : Pruned journal done kept)
    (last : ∀ before ∈ done, before.Precedes hypothesis) :
    Pruned journal (done ++ [hypothesis]) (pruneInto journal kept hypothesis) := by
  rcases pruneInto_cases journal kept hypothesis with ⟨⟨least, member, subsumes⟩, same⟩ | ⟨fresh, same⟩
  · rw [same]
    refine ⟨pruned.listed.trans (sublist_append_left _ _), forall_mem_append.mpr
      ⟨pruned.represented, forall_mem_singleton.mpr ⟨least, member, ?_, subsumes⟩⟩, pruned.apart⟩
    exact last least (pruned.listed.subset member)
  · rw [same]
    refine ⟨pruned.listed.append_right _, forall_mem_append.mpr ⟨?_, forall_mem_singleton.mpr ?_⟩,
      pairwise_append.mpr ⟨pruned.apart, pairwise_singleton _ _, ?_⟩⟩
    · intro before member
      obtain ⟨least, stays, represents⟩ := pruned.represented before member
      exact ⟨least, mem_append_left _ stays, represents⟩
    · exact ⟨hypothesis, mem_append_right _ (mem_singleton_self _), Std.Refl.refl _, .inl rfl⟩
    · exact fun least member => forall_mem_singleton.mpr (fresh least member)

theorem Pruned.foldl (pruned : Pruned journal done kept) (sorted : (done ++ rest).Pairwise Precedes) :
    Pruned journal (done ++ rest) (rest.foldl (Explorer.pruneInto journal) kept) := by
  induction rest generalizing done kept with
  | nil => rwa [append_nil]
  | cons hypothesis rest ih =>
    have last : ∀ before ∈ done, before.Precedes hypothesis := fun before member =>
      (pairwise_append.mp sorted).2.2 before member hypothesis mem_cons_self
    rw [append_cons] at sorted ⊢
    exact ih (pruned.pruneInto last) sorted

theorem foldl_pruneInto_of_apart
    (apart : (kept ++ rest).Pairwise fun least hypothesis => ¬Subsumes journal least hypothesis) :
    rest.foldl (pruneInto journal) kept = kept ++ rest := by
  induction rest generalizing kept with
  | nil => exact (append_nil kept).symm
  | cons hypothesis rest ih =>
    rcases pruneInto_cases journal kept hypothesis with ⟨⟨least, member, subsumes⟩, -⟩ | ⟨-, added⟩
    · exact absurd subsumes ((pairwise_append.mp apart).2.2 least member hypothesis mem_cons_self)
    · rw [append_cons] at apart ⊢
      rw [foldl_cons, added, ih apart]

/-- With one hypothesis there is nothing to prune. -/
theorem samcPrune_eq (journal : Journal) (hypotheses : List FaultHypothesis) :
    samcPrune journal hypotheses = (hypotheses.insertionSort Precedes).foldl (pruneInto journal) [] := by
  unfold samcPrune
  split_ifs with few
  · match hypotheses, few with
    | [], _ => rfl
    | [hypothesis], _ => rfl
  · rfl

theorem pruned_samcPrune (journal : Journal) (hypotheses : List FaultHypothesis) :
    Pruned journal (hypotheses.insertionSort Precedes) (samcPrune journal hypotheses) := by
  rw [samcPrune_eq]
  exact Pruned.foldl ⟨Sublist.refl _, forall_mem_nil _, .nil⟩ (pairwise_insertionSort _ _)

/-- Neither the order nor the swaps look at the texts. -/
theorem map_bare_samcPrune (journal : Journal) (hypotheses : List FaultHypothesis) :
    (samcPrune journal hypotheses).map bare =
      ((hypotheses.insertionSort Precedes).map bare).foldl (pruneInto journal) [] := by
  rw [samcPrune_eq, foldl_map]
  refine (foldl_hom (map bare) fun kept hypothesis => ?_).symm
  unfold pruneInto
  rw [any_map, any_map, apply_ite (map bare), map_append]
  rfl

theorem map_bare_samcPrune_of_perm {permuted : List FaultHypothesis} (permutes : permuted.Perm hypotheses) :
    (samcPrune journal permuted).map bare = (samcPrune journal hypotheses).map bare := by
  have sorted (hypotheses : List FaultHypothesis) :
      ((hypotheses.insertionSort Precedes).map bare).Pairwise Precedes :=
    pairwise_map.mpr (pairwise_insertionSort Precedes hypotheses)
  have same : (permuted.insertionSort Precedes).map bare = (hypotheses.insertionSort Precedes).map bare := by
    refine Perm.eq_of_pairwise ?_ (sorted permuted) (sorted hypotheses)
      ((((perm_insertionSort _ _).trans permutes).trans (perm_insertionSort _ _).symm).map bare)
    intro left right first second precedes follows
    obtain ⟨_, -, rfl⟩ := mem_map.mp first
    obtain ⟨_, -, rfl⟩ := mem_map.mp second
    exact precedes.antisymm follows
  rw [map_bare_samcPrune, map_bare_samcPrune, same]

theorem min?_totalCost (listed : kept ⊆ hypotheses)
    (cheaper : ∀ hypothesis ∈ hypotheses, ∃ least ∈ kept, least.totalCost ≤ hypothesis.totalCost) :
    (kept.map totalCost).min? = (hypotheses.map totalCost).min? := by
  cases cheapest : (hypotheses.map totalCost).min? with
  | none =>
    rw [min?_eq_none_iff, map_eq_nil_iff] at cheapest ⊢
    exact subset_nil.mp (cheapest ▸ listed)
  | some cost =>
    rw [min?_eq_some_iff] at cheapest ⊢
    obtain ⟨attained, below⟩ := cheapest
    obtain ⟨hypothesis, member, rfl⟩ := mem_map.mp attained
    obtain ⟨least, stays, lower⟩ := cheaper hypothesis member
    have same := le_antisymm lower (below _ (mem_map_of_mem (listed stays)))
    exact ⟨mem_map.mpr ⟨least, stays, same⟩, fun cost inside => below cost (map_subset _ listed inside)⟩

end Ldgr.Explorer.FaultHypothesis
