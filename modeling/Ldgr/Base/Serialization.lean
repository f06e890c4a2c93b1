import Mathlib

/-! Orders of items that a sequential machine accepts one by one. -/

namespace Ldgr.Base

variable {ι σ : Type} [DecidableEq ι] {step : σ → ι → Option σ} {before : ι → ι → Prop}

/-- The pending items one after the other, each when nothing before it is pending any more. -/
inductive Serializes (step : σ → ι → Option σ) (before : ι → ι → Prop) : Finset ι → σ → List ι → Prop where
  | done {state : σ} : Serializes step before ∅ state []
  | place {pending : Finset ι} {state next : σ} {item : ι} {order : List ι} (member : item ∈ pending)
      (ready : ∀ other ∈ pending, ¬before other item) (accepted : step state item = some next)
      (rest : Serializes step before (pending.erase item) next order) :
      Serializes step before pending state (item :: order)

/-- Such an order lists every item once, none after one it is before, and is accepted as a whole. -/
theorem serializes_iff (irreflexive : ∀ item, ¬before item item) {pending : Finset ι} {state : σ}
    {order : List ι} :
    Serializes step before pending state order ↔ order.Nodup ∧ order.toFinset = pending ∧
        order.Pairwise (fun first second => ¬before second first) ∧
        (order.foldlM step state).isSome := by
  induction order generalizing pending state with
  | nil =>
    constructor
    · rintro ⟨⟩
      exact ⟨.nil, rfl, .nil, rfl⟩
    · rintro ⟨_, rfl, _⟩
      exact .done
  | cons item order ih =>
    rw [List.nodup_cons, List.toFinset_cons, List.pairwise_cons, List.foldlM_cons]
    constructor
    · rintro (_ | ⟨member, ready, accepted, rest⟩)
      obtain ⟨nodup, same, ordered, final⟩ := ih.mp rest
      have listed : ∀ other ∈ order, other ∈ pending.erase item := fun other later =>
        same ▸ List.mem_toFinset.mpr later
      refine ⟨⟨fun again => ?_, nodup⟩, ?_, ⟨fun other later => ?_, ordered⟩, ?_⟩
      · exact Finset.notMem_erase item pending (listed item again)
      · rw [same, Finset.insert_erase member]
      · exact ready other (Finset.mem_of_mem_erase (listed other later))
      · rw [accepted]
        exact final
    · rintro ⟨⟨new, nodup⟩, rfl, ⟨first, ordered⟩, final⟩
      obtain ⟨last, final⟩ := Option.isSome_iff_exists.mp final
      obtain ⟨next, accepted, final⟩ := Option.bind_eq_some_iff.mp final
      refine .place (Finset.mem_insert_self _ _) (fun other member => ?_) accepted (ih.mpr ?_)
      · rcases Finset.mem_insert.mp member with rfl | later
        · exact irreflexive other
        · exact first other (List.mem_toFinset.mp later)
      · rw [Finset.erase_insert (fun again => new (List.mem_toFinset.mp again))]
        exact ⟨nodup, rfl, ordered, Option.isSome_iff_exists.mpr ⟨last, final⟩⟩

/-- Some order exists exactly when nothing is pending, or a ready item can go first. -/
theorem exists_serializes_iff {pending : Finset ι} {state : σ} :
    (∃ order, Serializes step before pending state order) ↔
      pending = ∅ ∨ ∃ item ∈ pending, (∀ other ∈ pending, ¬before other item) ∧
        ∃ next, step state item = some next ∧
          ∃ order, Serializes step before (pending.erase item) next order := by
  constructor
  · rintro ⟨order, _ | ⟨member, ready, accepted, rest⟩⟩
    · exact .inl rfl
    · exact .inr ⟨_, member, ready, _, accepted, _, rest⟩
  · rintro (rfl | ⟨item, member, ready, next, accepted, order, rest⟩)
    · exact ⟨[], .done⟩
    · exact ⟨item :: order, .place member ready accepted rest⟩

end Ldgr.Base
