import Mathlib

/-! Depth-first collection of everything the links of some start elements lead to. -/

namespace Ldgr.Base

open List

open Relation (ReflTransGen)

variable {α : Type}

/-- Takes elements off a stack, whose top comes first, and pushes the links of each new one in
order. -/
def collect [DecidableEq α] (links : α → List α) : Nat → List α → List α → List α
  | 0, _, seen => seen
  | _ + 1, [], seen => seen
  | fuel + 1, item :: stack, seen =>
    if item ∈ seen then collect links fuel stack seen
    else collect links fuel ((links item).reverse ++ stack) (item :: seen)

namespace Worklist

variable {links : α → List α}

/-- The links of the elements seen have been seen or are on the stack. -/
def Closed (links : α → List α) (stack seen : List α) : Prop :=
  ∀ item ∈ seen, ∀ next ∈ links item, next ∈ seen ∨ next ∈ stack

abbrev Leads (links : α → List α) : α → α → Prop :=
  ReflTransGen fun item next => next ∈ links item

theorem Closed.leads {stack seen : List α} (closed : Closed links stack seen) {start item : α}
    (known : start ∈ seen) (leads : Leads links start item) :
    item ∈ seen ∨ ∃ start ∈ stack, Leads links start item := by
  induction leads using ReflTransGen.head_induction_on with
  | refl => exact .inl known
  | head link path ih =>
    obtain seen | stacked := closed _ known _ link
    · exact ih seen
    · exact .inr ⟨_, stacked, path⟩

variable [DecidableEq α]

/-- The number of links of known elements that are still to be pushed. -/
def pending (links : α → List α) (known seen : List α) : Nat :=
  ((known.filter (· ∉ seen)).map fun item => (links item).length).sum

theorem pending_le (known seen : List α) :
    pending links known seen ≤ (known.map fun item => (links item).length).sum :=
  (filter_sublist.map _).sum_le_sum fun _ _ => Nat.zero_le _

theorem pending_cons {known seen : List α} {item : α} (closed : item ∉ known → links item = [])
    (fresh : item ∉ seen) :
    (links item).length + pending links known (item :: seen) ≤ pending links known seen := by
  have narrowed : known.filter (· ∉ item :: seen) = (known.filter (· ∉ seen)).filter (· ≠ item) := by
    rw [filter_filter]
    refine filter_congr fun other _ => ?_
    simp [not_or]
  rw [pending, pending, narrowed]
  by_cases listed : item ∈ known
  · have split : (known.filter (· ∉ seen)).Perm (item :: (known.filter (· ∉ seen)).erase item) :=
      perm_cons_erase (mem_filter.mpr ⟨listed, by simpa using fresh⟩)
    have kept := ((split.filter (· ≠ item)).map fun item => (links item).length).sum_eq
    have all := (split.map fun item => (links item).length).sum_eq
    rw [filter_cons_of_neg (by simp)] at kept
    rw [map_cons, sum_cons] at all
    rw [kept, all]
    exact Nat.add_le_add_left ((filter_sublist.map _).sum_le_sum fun _ _ => Nat.zero_le _) _
  · rw [closed listed, length_nil, Nat.zero_add]
    exact (filter_sublist.map _).sum_le_sum fun _ _ => Nat.zero_le _

theorem mem_collect_iff {known stack seen : List α} {fuel : Nat}
    (sparse : ∀ item, item ∉ known → links item = []) (closed : Closed links stack seen)
    (enough : stack.length + pending links known seen ≤ fuel) (item : α) :
    item ∈ collect links fuel stack seen ↔ item ∈ seen ∨ ∃ start ∈ stack, Leads links start item := by
  induction fuel, stack, seen using collect.induct links with
  | case1 stack seen =>
    obtain rfl : stack = [] := length_eq_zero_iff.mp (by omega)
    simp [collect]
  | case2 fuel seen => simp [collect]
  | case3 fuel first stack seen member ih =>
    have kept : Closed links stack seen := by
      intro item known next link
      obtain known | stacked := closed item known next link
      · exact .inl known
      · obtain rfl | later := mem_cons.mp stacked
        · exact .inl member
        · exact .inr later
    rw [collect, if_pos member, ih kept (by rw [length_cons] at enough; omega)]
    constructor
    · rintro (seen | ⟨start, stacked, leads⟩)
      · exact .inl seen
      · exact .inr ⟨start, mem_cons_of_mem _ stacked, leads⟩
    · rintro (seen | ⟨start, stacked, leads⟩)
      · exact .inl seen
      · obtain rfl | later := mem_cons.mp stacked
        · exact kept.leads member leads
        · exact .inr ⟨start, later, leads⟩
  | case4 fuel first stack seen fresh ih =>
    have grown : Closed links ((links first).reverse ++ stack) (first :: seen) := by
      refine forall_mem_cons.mpr ⟨fun next link => ?_, fun item known next link => ?_⟩
      · exact .inr (mem_append_left _ (mem_reverse.mpr link))
      · obtain known | stacked := closed item known next link
        · exact .inl (mem_cons_of_mem _ known)
        · obtain rfl | later := mem_cons.mp stacked
          · exact .inl mem_cons_self
          · exact .inr (mem_append_right _ later)
    have spent := pending_cons (sparse first) fresh
    rw [length_cons] at enough
    rw [collect, if_neg fresh, ih grown (by rw [length_append, length_reverse]; omega)]
    constructor
    · rintro (known | ⟨start, stacked, leads⟩)
      · obtain rfl | known := mem_cons.mp known
        · exact .inr ⟨item, mem_cons_self, .refl⟩
        · exact .inl known
      · obtain link | later := mem_append.mp stacked
        · exact .inr ⟨first, mem_cons_self, .head (mem_reverse.mp link) leads⟩
        · exact .inr ⟨start, mem_cons_of_mem _ later, leads⟩
    · rintro (known | ⟨start, stacked, leads⟩)
      · exact .inl (mem_cons_of_mem _ known)
      · obtain rfl | later := mem_cons.mp stacked
        · exact grown.leads mem_cons_self leads
        · exact .inr ⟨start, mem_append_right _ later, leads⟩

/-- The whole search, with fuel for every link. -/
theorem mem_collect_nil_iff {known : List α} (sparse : ∀ item, item ∉ known → links item = [])
    (starts : List α) (item : α) :
    item ∈ collect links (starts.length + (known.map fun item => (links item).length).sum)
        starts.reverse [] ↔ ∃ start ∈ starts, Leads links start item := by
  rw [mem_collect_iff sparse (forall_mem_nil _)
    (by rw [length_reverse]; exact Nat.add_le_add_left (pending_le _ _) _)]
  simp

end Worklist

end Ldgr.Base
