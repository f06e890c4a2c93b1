import Mathlib

/-! Sparse content kept as extents: runs of cells, each by the index it starts at. Writing over a window
carves it out of the extents there and adds one of its own. -/

namespace Ldgr.Base

abbrev Extent (α : Type) := Nat × List α

namespace Extent

variable {α : Type}

def finish (extent : Extent α) : Nat :=
  extent.1 + extent.2.length

def cell? (extent : Extent α) (index : Nat) : Option α :=
  if extent.1 ≤ index then extent.2[index - extent.1]? else none

/-- What is left of an extent outside `[start, stop)`. -/
def carve (start stop : Nat) (extent : Extent α) : List (Extent α) :=
  if extent.1 < stop ∧ start < extent.finish then
    (if extent.1 < start then [(extent.1, extent.2.take (start - extent.1))] else []) ++
      if stop < extent.finish then [(stop, extent.2.drop (stop - extent.1))] else []
  else [extent]

def overwrite (start : Nat) (cells : List α) (extents : List (Extent α)) : List (Extent α) :=
  extents.flatMap (carve start (start + cells.length)) ++ [(start, cells)]

/-- No extent is empty and no two overlap. -/
structure Tiled (extents : List (Extent α)) : Prop where
  inhabited : ∀ extent ∈ extents, extent.1 < extent.finish
  unique : ∀ left ∈ extents, ∀ right ∈ extents, left.1 = right.1 → left = right
  separate : ∀ left ∈ extents, ∀ right ∈ extents, left.1 < right.1 → left.finish ≤ right.1

/-- The last extent ends at `length`. -/
structure Reaches (extents : List (Extent α)) (length : Nat) : Prop where
  within : ∀ extent ∈ extents, extent.finish ≤ length
  attained : length = 0 ∨ ∃ extent ∈ extents, extent.finish = length

/-! ## Cells -/

variable {extent : Extent α} {index : Nat} {cell : α} {extents : List (Extent α)} {start stop : Nat}
  {cells : List α}

theorem cell?_lt (found : extent.cell? index = some cell) : extent.1 ≤ index ∧ index < extent.finish := by
  unfold cell? at found
  split_ifs at found with above
  obtain ⟨inside, -⟩ := List.getElem?_eq_some_iff.mp found
  exact ⟨above, by unfold finish; omega⟩

theorem cell?_isSome (above : extent.1 ≤ index)
    (inside : index < extent.finish) : ∃ cell, extent.cell? index = some cell := by
  unfold finish at inside
  rw [cell?, if_pos above]
  exact ⟨_, List.getElem?_eq_getElem (by omega)⟩

theorem cell?_take (extent : Extent α) (start index : Nat) :
    cell? (extent.1, extent.2.take (start - extent.1)) index =
      if index < start then extent.cell? index else none := by
  unfold cell?
  dsimp only
  split_ifs with above before
  · rw [List.getElem?_take_of_lt (by omega)]
  · rw [List.getElem?_take_eq_none (by omega)]
  · rfl
  · rfl

theorem cell?_drop {stop : Nat} (begun : extent.1 ≤ stop) (index : Nat) :
    cell? (stop, extent.2.drop (stop - extent.1)) index =
      if stop ≤ index then extent.cell? index else none := by
  unfold cell?
  dsimp only
  split_ifs with after above
  · rw [List.getElem?_drop]
    congr 1
    omega
  · omega
  · rfl

section Members

variable {extents other : List (Extent α)} (same : ∀ extent, extent ∈ other ↔ extent ∈ extents)

include same

theorem Tiled.congr (tiled : Tiled extents) : Tiled other where
  inhabited extent member := tiled.inhabited extent ((same extent).mp member)
  unique left first right second :=
    tiled.unique left ((same left).mp first) right ((same right).mp second)
  separate left first right second :=
    tiled.separate left ((same left).mp first) right ((same right).mp second)

theorem Reaches.congr {length : Nat} (reaches : Reaches extents length) : Reaches other length where
  within extent member := reaches.within extent ((same extent).mp member)
  attained := reaches.attained.imp_right fun ⟨extent, member, ends⟩ =>
    ⟨extent, (same extent).mpr member, ends⟩

end Members

/-! ## Writes -/

theorem mem_carve {extent part : Extent α} : part ∈ carve start stop extent ↔
      (part = extent ∧ (extent.finish ≤ start ∨ stop ≤ extent.1)) ∨
      (part = (extent.1, extent.2.take (start - extent.1)) ∧ extent.1 < stop ∧ extent.1 < start ∧
        start < extent.finish) ∨
      (part = (stop, extent.2.drop (stop - extent.1)) ∧ extent.1 < stop ∧ start < extent.finish ∧
        stop < extent.finish) := by
  unfold carve
  by_cases cut : extent.1 < stop ∧ start < extent.finish
  · have within : ¬(extent.finish ≤ start ∨ stop ≤ extent.1) := by omega
    rw [if_pos cut, List.mem_append]
    simp only [cut, within, and_false, false_or, true_and, and_true]
    refine or_congr ?_ ?_ <;> split_ifs with beyond <;> simp [beyond]
  · have outside : extent.finish ≤ start ∨ stop ≤ extent.1 := by omega
    rw [if_neg cut, List.mem_singleton, and_iff_left outside]
    refine (or_iff_left ?_).symm
    rintro (⟨-, overlaps⟩ | ⟨-, overlaps⟩) <;> omega

theorem mem_overwrite {start : Nat} {part : Extent α} : part ∈ overwrite start cells extents ↔
      (∃ extent ∈ extents, part ∈ carve start (start + cells.length) extent) ∨ part = (start, cells) := by
  rw [overwrite, List.mem_append, List.mem_flatMap, List.mem_singleton]

/-- Every cell outside the window stays where it was. -/
theorem holds_carve {start stop index : Nat} (_ : start ≤ stop) :
    (∃ part ∈ carve start stop extent, part.cell? index = some cell) ↔
      ¬(start ≤ index ∧ index < stop) ∧ extent.cell? index = some cell := by
  constructor
  · rintro ⟨part, member, found⟩
    obtain ⟨rfl, outside⟩ | ⟨rfl, -, -, -⟩ | ⟨rfl, begun, -⟩ := mem_carve.mp member
    · have := cell?_lt found
      exact ⟨by omega, found⟩
    · rw [cell?_take] at found
      split_ifs at found with before
      exact ⟨by omega, found⟩
    · rw [cell?_drop begun.le] at found
      split_ifs at found with after
      exact ⟨by omega, found⟩
  · rintro ⟨outside, found⟩
    have inside := cell?_lt found
    by_cases cut : extent.1 < stop ∧ start < extent.finish
    · by_cases before : index < start
      · refine ⟨_, mem_carve.mpr (.inr (.inl ⟨rfl, cut.1, by omega, cut.2⟩)), ?_⟩
        rw [cell?_take, if_pos before, found]
      · refine ⟨_, mem_carve.mpr (.inr (.inr ⟨rfl, cut.1, cut.2, by omega⟩)), ?_⟩
        rw [cell?_drop cut.1.le, if_pos (by omega), found]
    · exact ⟨extent, mem_carve.mpr (.inl ⟨rfl, by omega⟩), found⟩

theorem carve_bounds {extent part : Extent α}
    (proper : extent.1 < extent.finish) (member : part ∈ carve start stop extent) :
    extent.1 ≤ part.1 ∧ part.1 < part.finish ∧ part.finish ≤ extent.finish ∧
      (part.1 = extent.1 ∧ part.finish ≤ start ∨ part.1 = max stop extent.1 ∧ part.finish = extent.finish) := by
  obtain ⟨rfl, outside⟩ | ⟨rfl, cut⟩ | ⟨rfl, cut⟩ := mem_carve.mp member
  · exact ⟨le_rfl, proper, le_rfl, by omega⟩
  · have left : finish (extent.1, extent.2.take (start - extent.1)) = start := by
      unfold finish at *
      rw [List.length_take]
      omega
    rw [left]
    dsimp only
    omega
  · have right : finish (stop, extent.2.drop (stop - extent.1)) = extent.finish := by
      unfold finish at *
      rw [List.length_drop]
      omega
    rw [right]
    dsimp only
    omega

theorem carve_unique {extent left right : Extent α}
    (first : left ∈ carve start stop extent) (second : right ∈ carve start stop extent)
    (same : left.1 = right.1) : left = right := by
  obtain ⟨rfl, outside⟩ | ⟨rfl, cut⟩ | ⟨rfl, cut⟩ := mem_carve.mp first <;>
    obtain ⟨rfl, outside'⟩ | ⟨rfl, cut'⟩ | ⟨rfl, cut'⟩ := mem_carve.mp second <;>
    first | rfl | (exfalso; simp only [finish] at *; omega)

theorem Tiled.overwrite (tiled : Tiled extents) (start : Nat)
    (some : cells ≠ []) : Tiled (overwrite start cells extents) := by
  have size := List.length_pos_iff.mpr some
  have fresh : finish (start, cells) = start + cells.length := rfl
  have parts {part : Extent α} (member : part ∈ Extent.overwrite start cells extents) :
      part = (start, cells) ∨ ∃ extent ∈ extents, part ∈ carve start (start + cells.length) extent :=
    (mem_overwrite.mp member).symm
  constructor
  · intro part member
    obtain rfl | ⟨extent, inside, carved⟩ := parts member
    · exact Nat.lt_add_of_pos_right size
    · exact (carve_bounds (tiled.inhabited extent inside) carved).2.1
  · intro left first right second same
    obtain rfl | ⟨extent, inside, carved⟩ := parts first <;>
      obtain rfl | ⟨other, inside', carved'⟩ := parts second
    · rfl
    · have := carve_bounds (tiled.inhabited other inside') carved'
      dsimp only at same
      omega
    · have := carve_bounds (tiled.inhabited extent inside) carved
      dsimp only at same
      omega
    · have here := carve_bounds (tiled.inhabited extent inside) carved
      have there := carve_bounds (tiled.inhabited other inside') carved'
      obtain below | equal | below := Nat.lt_trichotomy extent.1 other.1
      · have := tiled.separate extent inside other inside' below
        omega
      · cases tiled.unique extent inside other inside' equal
        exact carve_unique carved carved' same
      · have := tiled.separate other inside' extent inside below
        omega
  · intro left first right second below
    obtain rfl | ⟨extent, inside, carved⟩ := parts first <;>
      obtain rfl | ⟨other, inside', carved'⟩ := parts second
    · exact absurd below (lt_irrefl _)
    · have := carve_bounds (tiled.inhabited other inside') carved'
      dsimp only at below
      omega
    · have := carve_bounds (tiled.inhabited extent inside) carved
      dsimp only at below ⊢
      omega
    · have here := carve_bounds (tiled.inhabited extent inside) carved
      have there := carve_bounds (tiled.inhabited other inside') carved'
      obtain before | equal | before := Nat.lt_trichotomy extent.1 other.1
      · have := tiled.separate extent inside other inside' before
        omega
      · cases tiled.unique extent inside other inside' equal
        omega
      · have := tiled.separate other inside' extent inside before
        omega

theorem Reaches.overwrite {length : Nat} (tiled : Tiled extents)
    (reaches : Reaches extents length) (start : Nat) (cells : List α) :
    Reaches (overwrite start cells extents) (max length (start + cells.length)) := by
  constructor
  · intro part member
    obtain ⟨extent, inside, carved⟩ | rfl := mem_overwrite.mp member
    · have := carve_bounds (tiled.inhabited extent inside) carved
      have := reaches.within extent inside
      omega
    · exact le_max_right _ _
  · by_cases longer : length ≤ start + cells.length
    · exact .inr ⟨_, mem_overwrite.mpr (.inr rfl), (max_eq_right longer).symm⟩
    · rw [max_eq_left (by omega)]
      obtain rfl | ⟨extent, inside, rfl⟩ := reaches.attained
      · omega
      · have proper := tiled.inhabited extent inside
        obtain ⟨cell, last⟩ : ∃ cell, extent.cell? (extent.finish - 1) = some cell :=
          cell?_isSome (by omega) (by omega)
        obtain ⟨part, carved, found⟩ : ∃ part ∈ carve start (start + cells.length) extent,
            part.cell? (extent.finish - 1) = some cell :=
          (holds_carve (Nat.le_add_right _ _)).mpr ⟨by omega, last⟩
        refine .inr ⟨part, mem_overwrite.mpr (.inl ⟨extent, inside, carved⟩), ?_⟩
        have := carve_bounds proper carved
        have := cell?_lt found
        omega

end Extent

end Ldgr.Base
