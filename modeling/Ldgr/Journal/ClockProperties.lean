import Ldgr.Journal.Clock

/-! Clocks through their components: merge is the maximum and increment adds one. -/

namespace Ldgr

open Base Format List

namespace VectorClock

def componentOf (components : List (ActorId × UInt64)) (actor : ActorId) : UInt64 :=
  (components.lookup actor).getD 0

theorem componentOf_cons (component : ActorId × UInt64) (rest : List (ActorId × UInt64)) (actor : ActorId) :
    componentOf (component :: rest) actor =
      if actor = component.1 then component.2 else componentOf rest actor := by
  rw [componentOf, SortedMap.lookup_cons]
  split_ifs <;> rfl

theorem componentOf_eq_zero {components : List (ActorId × UInt64)} {actor : ActorId}
    (below : ∀ component ∈ components, actor < component.1) : componentOf components actor = 0 := by
  rw [componentOf, SortedMap.lookup_eq_none_of_lt below, Option.getD_none]

theorem max_zero_left (value : UInt64) : max 0 value = value := by
  rw [← UInt64.toNat_inj, UInt64.toNat_max]
  exact Nat.zero_max _

theorem max_zero_right (value : UInt64) : max value 0 = value := by
  rw [← UInt64.toNat_inj, UInt64.toNat_max]
  exact Nat.max_zero _

theorem max_eq_of_not_lt {left right : UInt64} (above : ¬ left < right) : max left right = left := by
  rw [← UInt64.toNat_inj, UInt64.toNat_max]
  rw [UInt64.lt_iff_toNat_lt] at above
  omega

theorem max_comm (left right : UInt64) : max left right = max right left := by
  rw [← UInt64.toNat_inj, UInt64.toNat_max, UInt64.toNat_max, Nat.max_comm]

/-! ## Merge -/

/-- What the merge loop owes its caller: an ascending list of the actors of both inputs with the
larger of their components, equal to an input whose flag is still set. -/
structure Merged.Of (merged : Merged) (left right : List (ActorId × UInt64)) : Prop where
  ascending : merged.components.Pairwise fun first second => first.1 < second.1
  actors : ∀ component ∈ merged.components, ∃ input ∈ left ++ right, input.1 = component.1
  larger : ∀ actor, componentOf merged.components actor = max (componentOf left actor) (componentOf right actor)
  left : merged.identicalToLeft = true → merged.components = left
  right : merged.identicalToRight = true → merged.components = right

theorem Merged.Of.push {rest : Merged} {left right left' right' : List (ActorId × UInt64)}
    (merged : rest.Of left right) {component : ActorId × UInt64} {toLeft toRight : Bool}
    (below : ∀ input ∈ left ++ right, component.1 < input.1)
    (listed : ∃ input ∈ left' ++ right', input.1 = component.1)
    (kept : left ++ right ⊆ left' ++ right')
    (larger : component.2 = max (componentOf left' component.1) (componentOf right' component.1))
    (others : ∀ actor, actor ≠ component.1 → componentOf left' actor = componentOf left actor ∧
      componentOf right' actor = componentOf right actor)
    (isLeft : toLeft = true → component :: rest.components = left')
    (isRight : toRight = true → component :: rest.components = right') :
    (Merged.mk (component :: rest.components) toLeft toRight).Of left' right' := by
  refine ⟨pairwise_cons.mpr ⟨?_, merged.ascending⟩, ?_, ?_, isLeft, isRight⟩
  · intro later member
    obtain ⟨input, inputMember, same⟩ := merged.actors later member
    exact same ▸ below input inputMember
  · intro found member
    obtain first | later := mem_cons.mp member
    · exact first ▸ listed
    · obtain ⟨input, inputMember, same⟩ := merged.actors found later
      exact ⟨input, kept inputMember, same⟩
  · intro actor
    rw [componentOf_cons, merged.larger]
    split_ifs with same
    · rw [same, larger]
    · rw [(others actor same).1, (others actor same).2]

private theorem below_cons {actor : ActorId} {component : ActorId × UInt64}
    {rest : List (ActorId × UInt64)} (before : actor < component.1)
    (below : ∀ later ∈ rest, component.1 < later.1) :
    ∀ input ∈ component :: rest, actor < input.1 := by
  intro input member
  obtain first | later := mem_cons.mp member
  · exact first ▸ before
  · exact before.trans (below input later)

theorem mergeComponents_of {left right : List (ActorId × UInt64)}
    (leftAscending : left.Pairwise fun first second => first.1 < second.1)
    (rightAscending : right.Pairwise fun first second => first.1 < second.1) :
    (mergeComponents left right).Of left right := by
  -- The outer induction moves the left iterator, the inner one the right iterator under it.
  induction left generalizing right with
  | nil =>
    refine ⟨rightAscending, fun component member => ⟨component, member, rfl⟩, ?_, ?_, ?_⟩
    · intro actor
      exact (max_zero_left _).symm
    · intro identical
      exact isEmpty_iff.mp identical
    · intro _
      rfl
  | cons component left ih =>
    obtain ⟨leftBelow, leftSorted⟩ := pairwise_cons.mp leftAscending
    rw [mergeComponents]
    induction right with
    | nil =>
      refine ⟨leftAscending, fun other member => ⟨other, by simpa [mergeFrom] using member, rfl⟩, ?_, ?_, ?_⟩
      · intro actor
        exact (max_zero_right _).symm
      · intro _
        rfl
      · intro identical
        cases identical
    | cons other right rightIH =>
      obtain ⟨rightBelow, rightSorted⟩ := pairwise_cons.mp rightAscending
      rw [mergeFrom]
      split_ifs with before after
      · have rest := ih leftSorted rightAscending
        have below := below_cons before rightBelow
        apply rest.push
        · exact forall_mem_append.mpr ⟨leftBelow, below⟩
        · exact ⟨component, by simp⟩
        · simp
        · rw [componentOf_eq_zero below, max_zero_right, componentOf_cons, if_pos rfl]
        · intro actor different
          simp [componentOf_cons, different]
        · intro identical
          rw [rest.left identical]
        · intro identical
          cases identical
      · have rest := rightIH rightSorted
        have below := below_cons after leftBelow
        apply rest.push
        · exact forall_mem_append.mpr ⟨below, rightBelow⟩
        · exact ⟨other, by simp⟩
        · exact append_subset.mpr ⟨by simp, fun input member => by simp [member]⟩
        · rw [componentOf_eq_zero below, max_zero_left, componentOf_cons, if_pos rfl]
        · intro actor different
          simp [componentOf_cons, different]
        · intro identical
          cases identical
        · intro identical
          rw [rest.right identical]
      · have same : component.1 = other.1 := le_antisymm (not_lt.mp after) (not_lt.mp before)
        have rest := ih leftSorted rightSorted
        apply rest.push
        · exact forall_mem_append.mpr ⟨leftBelow, same ▸ rightBelow⟩
        · exact ⟨component, by simp⟩
        · exact append_subset.mpr ⟨by simp, fun input member => by simp [member]⟩
        · simp [componentOf_cons, same]
        · intro actor different
          simp [componentOf_cons, different, same ▸ different]
        · intro identical
          simp only [Bool.and_eq_true, Bool.not_eq_true', decide_eq_false_iff_not] at identical
          rw [rest.left identical.2, max_eq_of_not_lt identical.1]
        · intro identical
          simp only [Bool.and_eq_true, Bool.not_eq_true', decide_eq_false_iff_not] at identical
          rw [rest.right identical.2, max_comm, max_eq_of_not_lt identical.1, same]

theorem mergeComponents_self (components : List (ActorId × UInt64)) :
    (mergeComponents components components).components = components := by
  induction components with
  | nil => rfl
  | cons component rest ih =>
    simp [mergeComponents, mergeFrom, ih]

/-- The shortcuts return the map that the loop builds. -/
theorem entries_merge (left right : VectorClock) : (left.merge right).components.entries =
      (mergeComponents left.components.entries right.components.entries).components := by
  have merged := mergeComponents_of left.components.ascending right.components.ascending
  simp only [merge]
  split_ifs with trivial empty toLeft toRight
  · obtain empty | same := trivial
    · rw [isEmpty_iff.mp empty, mergeComponents]
    · rw [same, mergeComponents_self]
  · rw [isEmpty_iff.mp empty]
    cases left.components.entries <;> rfl
  · exact (merged.left toLeft).symm
  · exact (merged.right toRight).symm
  · exact SortedMap.entries_ofList merged.ascending

theorem get_merge (left right : VectorClock) (actor : ActorId) :
    (left.merge right).get actor = max (left.get actor) (right.get actor) := by
  have merged := mergeComponents_of left.components.ascending right.components.ascending
  rw [get, SortedMap.lookup, entries_merge]
  exact merged.larger actor

/-! ## Increment and order -/

theorem get_incremented (clock : VectorClock) (actor other : ActorId) : (clock.incremented actor).get other =
      if other = actor then saturatingAdd (clock.get actor) 1 else clock.get other := by
  rw [get, incremented, SortedMap.lookup_insert]
  split_ifs <;> rfl

theorem happensBeforeOrEqual_iff {clock other : VectorClock} :
    clock.happensBeforeOrEqual other = true ↔ ∀ actor, clock.get actor ≤ other.get actor := by
  rw [happensBeforeOrEqual, all_eq_true]
  constructor
  · intro below actor
    cases found : clock.components.lookup actor with
    | none =>
      rw [get, found, Option.getD_none]
      exact UInt64.zero_le
    | some value =>
      have member : (actor, value) ∈ clock.components.entries := by
        obtain ⟨before, after, split, _⟩ := lookup_eq_some_iff.mp found
        simp [split]
      rw [get, found, Option.getD_some]
      simpa using below _ member
  · intro below component member
    have present := SortedMap.lookup_of_mem member
    have smaller := below component.1
    rw [get, present, Option.getD_some] at smaller
    simpa using smaller

/-! ## Clocks as maps -/

def actors (clock : VectorClock) : List ActorId :=
  clock.components.entries.map Prod.fst

theorem mem_actors {clock : VectorClock} {actor : ActorId} :
    actor ∈ clock.actors ↔ (clock.components.lookup actor).isSome = true := by
  rw [actors, ← SortedMap.isSome_lookup_ofList, SortedMap.ofList_entries]

/-- A clock is its actors with their components. -/
theorem eq_of_get {clock other : VectorClock} (sameActors : ∀ actor, actor ∈ clock.actors ↔ actor ∈ other.actors)
    (sameGet : ∀ actor, clock.get actor = other.get actor) : clock = other := by
  refine congrArg mk (SortedMap.eq_of_lookup fun actor => ?_)
  have present := sameActors actor
  have component := sameGet actor
  rw [mem_actors, mem_actors] at present
  rw [get, get] at component
  cases found : clock.components.lookup actor <;> cases found' : other.components.lookup actor <;> simp_all

theorem mem_mergeComponents {left right : List (ActorId × UInt64)} {actor : ActorId} :
    actor ∈ (mergeComponents left right).components.map Prod.fst ↔
      actor ∈ left.map Prod.fst ∨ actor ∈ right.map Prod.fst := by
  induction left generalizing right with
  | nil => simp [mergeComponents]
  | cons component left ih =>
    rw [mergeComponents]
    induction right with
    | nil => simp [mergeFrom]
    | cons other right rightIH =>
      rw [mergeFrom]
      split_ifs with before after
      · simp [ih, or_assoc]
      · simp only [map_cons, mem_cons] at rightIH ⊢
        rw [rightIH]
        tauto
      · have same : component.1 = other.1 := le_antisymm (not_lt.mp after) (not_lt.mp before)
        simp only [map_cons, mem_cons, ih, same]
        tauto

theorem mem_actors_merge {left right : VectorClock} {actor : ActorId} :
    actor ∈ (left.merge right).actors ↔ actor ∈ left.actors ∨ actor ∈ right.actors := by
  rw [actors, entries_merge]
  exact mem_mergeComponents

theorem merge_comm (left right : VectorClock) : left.merge right = right.merge left := by
  apply eq_of_get <;> intro actor
  · rw [mem_actors_merge, mem_actors_merge, or_comm]
  · rw [get_merge, get_merge, max_comm]

theorem merge_assoc (first second third : VectorClock) :
    (first.merge second).merge third = first.merge (second.merge third) := by
  apply eq_of_get <;> intro actor
  · simp only [mem_actors_merge, or_assoc]
  · simp only [get_merge, ← UInt64.toNat_inj, UInt64.toNat_max, Nat.max_assoc]

theorem merge_self (clock : VectorClock) : clock.merge clock = clock := by
  rw [merge, if_pos (.inr rfl)]

theorem merge_happensBeforeOrEqual {left right bound : VectorClock} :
    (left.merge right).happensBeforeOrEqual bound = true ↔
      left.happensBeforeOrEqual bound = true ∧ right.happensBeforeOrEqual bound = true := by
  simp only [happensBeforeOrEqual_iff, get_merge, UInt64.le_iff_toNat_le, UInt64.toNat_max, Nat.max_le,
    forall_and]

/-- Merging is the maximum of every component over the actors of both clocks, and so a join. -/
theorem merge_is_join (left right third : VectorClock) :
    (∀ actor, (left.merge right).get actor = max (left.get actor) (right.get actor)) ∧
    (∀ actor, actor ∈ (left.merge right).actors ↔ actor ∈ left.actors ∨ actor ∈ right.actors) ∧
    (left.merge right).merge third = left.merge (right.merge third) ∧
    left.merge right = right.merge left ∧ left.merge left = left ∧
    left.happensBeforeOrEqual (left.merge right) = true ∧
    right.happensBeforeOrEqual (left.merge right) = true ∧
    ((left.merge right).happensBeforeOrEqual third = true ↔
      left.happensBeforeOrEqual third = true ∧ right.happensBeforeOrEqual third = true) := by
  have self : (left.merge right).happensBeforeOrEqual (left.merge right) = true :=
    happensBeforeOrEqual_iff.mpr fun _ => UInt64.le_refl _
  obtain ⟨leftBelow, rightBelow⟩ := merge_happensBeforeOrEqual.mp self
  exact ⟨get_merge left right, fun _ => mem_actors_merge, merge_assoc left right third,
    merge_comm left right, merge_self left, leftBelow, rightBelow, merge_happensBeforeOrEqual⟩

end VectorClock

end Ldgr
