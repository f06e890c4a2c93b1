import Mathlib

/-! Delta debugging: chunks are taken out of a failing sequence until no single element can be. -/

namespace Ldgr.Explorer

variable {α : Type}

def withoutChunk (current : List α) (start chunk : Nat) : List α :=
  current.take start ++ current.drop (min (start + chunk) current.length)

/-- The first candidate that still fails, over `left` more chunks from `index` on. -/
def firstReduced (fails : List α → Bool) (current : List α) (chunk : Nat) : (left index : Nat) → Option (List α)
  | 0, _ => none
  | left + 1, index =>
    if current.length ≤ index * chunk then none
    else if fails (withoutChunk current (index * chunk) chunk) then
      some (withoutChunk current (index * chunk) chunk)
    else firstReduced fails current chunk left (index + 1)

/-- What the loop works on: two chunks at least, and never more chunks than elements. -/
structure Chunked (α : Type) where
  current : List α
  partitions : Nat
  several : 2 ≤ partitions
  nonempty : 2 ≤ current.length → partitions ≤ current.length

namespace Chunked

def chunk (state : Chunked α) : Nat :=
  (state.current.length + state.partitions - 1) / state.partitions

variable {state : Chunked α}

theorem chunk_pos (long : 2 ≤ state.current.length) : 0 < state.chunk := by
  have several := state.several
  exact Nat.div_pos (by omega) (by omega)

/-- However the elements are split, a chunk leaves one element at least for each other chunk. -/
theorem chunk_le (long : 2 ≤ state.current.length) :
    state.chunk + state.partitions ≤ state.current.length + 1 := by
  obtain ⟨rest, split⟩ := Nat.exists_eq_add_of_le (state.nonempty long)
  have several := state.several
  have bound : state.chunk < rest + 2 := by
    refine (Nat.div_lt_iff_lt_mul (by omega)).mpr ?_
    calc state.current.length + state.partitions - 1 < rest + 2 * state.partitions := by omega
      _ ≤ rest * state.partitions + 2 * state.partitions :=
          Nat.add_le_add_right (Nat.le_mul_of_pos_right _ (by omega)) _
      _ = (rest + 2) * state.partitions := by ring
  omega

theorem chunk_of_singletons (fine : state.partitions = state.current.length) : state.chunk = 1 := by
  have several := state.several
  rw [chunk, fine]
  exact Nat.div_eq_of_lt_le (by omega) (by omega)

def pass (fails : List α → Bool) (state : Chunked α) : Option (List α) :=
  firstReduced fails state.current state.chunk state.partitions 0

end Chunked

variable {fails : List α → Bool} {current : List α}

theorem firstReduced_eq_some {current candidate : List α}
    {chunk left index : Nat} (found : firstReduced fails current chunk left index = some candidate) :
    ∃ start < current.length, candidate = withoutChunk current start chunk ∧ fails candidate = true := by
  induction left generalizing index with
  | zero => cases found
  | succ left ih =>
    rw [firstReduced] at found
    split_ifs at found with past fails
    · cases found
      exact ⟨index * chunk, Nat.not_le.mp past, rfl, fails⟩
    · exact ih found

theorem length_withoutChunk {start chunk : Nat} (inside : start < current.length) :
    (withoutChunk current start chunk).length = current.length - min chunk (current.length - start) := by
  rw [withoutChunk, List.length_append, List.length_take, List.length_drop]
  omega

namespace Chunked

theorem length_of_pass {fails : List α → Bool} {state : Chunked α} {candidate : List α}
    (long : 2 ≤ state.current.length) (found : state.pass fails = some candidate) :
    candidate.length < state.current.length ∧ state.current.length ≤ candidate.length + state.chunk := by
  obtain ⟨start, inside, rfl, _⟩ := firstReduced_eq_some found
  have positive := chunk_pos long
  rw [length_withoutChunk inside]
  omega

def reduced (state : Chunked α) (candidate : List α) (long : 2 ≤ state.current.length)
    (within : state.current.length ≤ candidate.length + state.chunk) : Chunked α where
  current := candidate
  partitions := max (state.partitions - 1) 2
  several := Nat.le_max_right ..
  nonempty many := by
    have split := chunk_le long
    omega

/-- On with chunks half as long, or with single elements. -/
def refined (state : Chunked α) (long : 2 ≤ state.current.length) : Chunked α where
  current := state.current
  partitions := min (state.partitions * 2) state.current.length
  several := by
    have several := state.several
    omega
  nonempty _ := Nat.min_le_right ..

end Chunked

def ddminLoop (fails : List α → Bool) (state : Chunked α) : List α :=
  if long : 2 ≤ state.current.length then
    match found : state.pass fails with
    | some candidate =>
      ddminLoop fails (state.reduced candidate long (Chunked.length_of_pass long found).2)
    | none =>
      if state.partitions = state.current.length then state.current
      else ddminLoop fails (state.refined long)
  else state.current
termination_by (state.current.length, state.current.length - state.partitions)
decreasing_by
  · exact Prod.Lex.left _ _ (Chunked.length_of_pass long found).1
  · rename_i coarse
    refine Prod.Lex.right _ ?_
    have several := state.several
    have nonempty := state.nonempty long
    simp only [Chunked.refined]
    omega

def ddmin (input : List α) (fails : List α → Bool) : List α :=
  if input.length < 2 ∨ !fails input then input
  else ddminLoop fails { current := input, partitions := 2, several := Nat.le_refl 2, nonempty := id }

/-! ## Minimality -/

theorem firstReduced_eq_none {chunk left index : Nat}
    (none : firstReduced fails current chunk left index = none) {tried : Nat} (after : index ≤ tried)
    (before : tried < index + left) (inside : tried * chunk < current.length) :
    fails (withoutChunk current (tried * chunk) chunk) = false := by
  induction left generalizing index with
  | zero => omega
  | succ left ih =>
    rw [firstReduced] at none
    have present : ¬current.length ≤ index * chunk :=
      Nat.not_le.mpr (Nat.lt_of_le_of_lt (Nat.mul_le_mul_right _ after) inside)
    rw [if_neg present] at none
    split_ifs at none with failing
    obtain rfl | later := Nat.eq_or_lt_of_le after
    · exact Bool.eq_false_iff.mpr failing
    · exact ih none later (by omega)

theorem withoutChunk_one {index : Nat} (inside : index < current.length) :
    withoutChunk current index 1 = current.eraseIdx index := by
  rw [withoutChunk, List.eraseIdx_eq_take_drop_succ, Nat.min_eq_left inside]

theorem withoutChunk_sublist (current : List α) (start chunk : Nat) :
    (withoutChunk current start chunk).Sublist current := by
  by_cases inside : start ≤ min (start + chunk) current.length
  · have rest : (current.drop (min (start + chunk) current.length)).Sublist (current.drop start) :=
      List.drop_sublist_drop_left _ inside
    have both := (List.Sublist.refl (current.take start)).append rest
    rwa [List.take_append_drop] at both
  · have past : current.length ≤ start := by omega
    rw [withoutChunk, List.take_of_length_le past, List.drop_of_length_le (by omega), List.append_nil]

/-- A failing sequence of which no element can be spared. -/
structure OneMinimal (fails : List α → Bool) (result : List α) : Prop where
  failing : fails result = true
  minimal : ∀ index < result.length, fails (result.eraseIdx index) = false

theorem oneMinimal_of_short {result : List α} (short : result.length < 2)
    (failing : fails result = true) (passing : fails [] = false) : OneMinimal fails result where
  failing
  minimal index inside := by
    have erased : (result.eraseIdx index).length = 0 := by
      rw [List.length_eraseIdx_of_lt inside]
      omega
    rw [List.length_eq_zero_iff.mp erased, passing]

theorem ddminLoop_oneMinimal {state : Chunked α}
    (failing : fails state.current = true) (passing : fails [] = false) :
    (ddminLoop fails state).Sublist state.current ∧ OneMinimal fails (ddminLoop fails state) := by
  fun_induction ddminLoop fails state with
  | case1 state long candidate found ih =>
    obtain ⟨start, _, same, stillFailing⟩ := firstReduced_eq_some found
    obtain ⟨sublist, minimal⟩ := ih stillFailing
    have shorter : candidate.Sublist state.current := same ▸ withoutChunk_sublist ..
    exact ⟨sublist.trans shorter, minimal⟩
  | case2 state long none fine =>
    refine ⟨List.Sublist.refl _, failing, fun index inside => ?_⟩
    have single := Chunked.chunk_of_singletons fine
    rw [Chunked.pass, single] at none
    have spared := firstReduced_eq_none none (Nat.zero_le index) (by omega) (by omega)
    rwa [Nat.mul_one, withoutChunk_one inside] at spared
  | case3 state long none coarse ih => exact ih failing
  | case4 state short =>
    exact ⟨List.Sublist.refl _, oneMinimal_of_short (Nat.not_le.mp short) failing passing⟩

theorem ddmin_oneMinimal {fails : List α → Bool} {input : List α} (failing : fails input = true)
    (passing : fails [] = false) :
    (ddmin input fails).Sublist input ∧ fails (ddmin input fails) = true ∧
      ∀ index < (ddmin input fails).length, fails ((ddmin input fails).eraseIdx index) = false := by
  suffices minimal : (ddmin input fails).Sublist input ∧ OneMinimal fails (ddmin input fails) from
    ⟨minimal.1, minimal.2.failing, minimal.2.minimal⟩
  rw [ddmin]
  split_ifs with done
  · have short : input.length < 2 := done.resolve_right (by simp [failing])
    exact ⟨List.Sublist.refl _, oneMinimal_of_short short failing passing⟩
  · exact ddminLoop_oneMinimal failing passing

/-- Sequences with both a two and a five fail, and two elements are what is left. -/
theorem ddmin_oneMinimal_pair :
    let fails (decisions : List Nat) : Bool := decisions.contains 2 && decisions.contains 5
    let result := ddmin [1, 2, 3, 4, 5, 6] fails
    result.Sublist [1, 2, 3, 4, 5, 6] ∧ fails result = true ∧
      ∀ index < result.length, fails (result.eraseIdx index) = false :=
  ddmin_oneMinimal (by decide) (by decide)

end Ldgr.Explorer
