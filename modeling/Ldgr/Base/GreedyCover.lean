import Mathlib

/-! The greedy rule for covering sets: whatever lies in the most sets comes first. -/

namespace Ldgr.Base

variable {α : Type} [LinearOrder α] [DecidableEq α]

/-- Elements of many sets come before those of few, cheap ones before expensive ones, and the order of
the elements decides the rest. -/
def coverRank (weight : α → ℕ) (sets : Multiset (Finset α)) (element : α) : ℕᵒᵈ ×ₗ ℕ ×ₗ α :=
  toLex (OrderDual.toDual (sets.countP (element ∈ ·)), toLex (weight element, element))

structure PicksCover (weight : α → ℕ) (sets : Multiset (Finset α)) (element : α) : Prop where
  occurs : ∃ set ∈ sets, element ∈ set
  first : ∀ set ∈ sets, ∀ other ∈ set, coverRank weight sets element ≤ coverRank weight sets other

/-- Elements picked one after the other, each among the sets none of those before it lies in. -/
inductive GreedyCover (weight : α → ℕ) : Multiset (Finset α) → Finset α → Prop where
  | done : GreedyCover weight 0 ∅
  | pick {sets : Multiset (Finset α)} {element : α} {cover : Finset α} (picks : PicksCover weight sets element)
      (rest : GreedyCover weight (sets.filter (element ∉ ·)) cover) :
      GreedyCover weight sets (insert element cover)

theorem PicksCover.unique {weight : α → ℕ} {sets : Multiset (Finset α)} {element other : α}
    (picks : PicksCover weight sets element) (others : PicksCover weight sets other) :
    element = other := by
  obtain ⟨set, listed, occurs⟩ := picks.occurs
  obtain ⟨otherSet, otherListed, otherOccurs⟩ := others.occurs
  have same := le_antisymm (picks.first otherSet otherListed other otherOccurs)
    (others.first set listed element occurs)
  exact congrArg (fun rank => (ofLex (ofLex rank).2).2) same

theorem GreedyCover.unique {weight : α → ℕ} {sets : Multiset (Finset α)} {cover other : Finset α}
    (greedy : GreedyCover weight sets cover) (others : GreedyCover weight sets other) :
    cover = other := by
  induction greedy generalizing other with
  | done =>
    cases others with
    | done => rfl
    | pick picks _ =>
      obtain ⟨_, listed, _⟩ := picks.occurs
      exact absurd listed (Multiset.notMem_zero _)
  | @pick sets element cover picks _ ih =>
    cases others with
    | done =>
      obtain ⟨_, listed, _⟩ := picks.occurs
      exact absurd listed (Multiset.notMem_zero _)
    | pick otherPicks otherRest =>
      cases picks.unique otherPicks
      rw [ih otherRest]

end Ldgr.Base
