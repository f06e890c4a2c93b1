import Ldgr.Base.Extents
import Ldgr.Sim.SimFs

/-! The cached ranges of a file as extents of bytes, each with the write it comes from. -/

namespace Ldgr.Sim

open Base Format SortedMap Placed List

def Placed.extent (placed : Placed) : Extent (UInt8 × EntryHash) :=
  (placed.1, placed.2.content.map (·, placed.2.writeId))

@[simp] theorem Placed.finish_extent (placed : Placed) : placed.extent.finish = placed.finish := by
  simp [Extent.finish, extent, finish]

namespace File

def extents (file : File) : List (Extent (UInt8 × EntryHash)) :=
  file.cache.entries.map extent

/-- The entries a write to `[start, stop)` leaves of one entry. -/
def leftovers (start stop : Nat) (placed : Placed) : List Placed :=
  if placed.1 < max stop 1 ∧ start < placed.finish then remains start stop placed else [placed]

theorem map_extent_leftovers {start stop : Nat} (some : start < stop) (placed : Placed) :
    (leftovers start stop placed).map extent = placed.extent.carve start stop := by
  have window : max stop 1 = stop := by omega
  unfold leftovers Extent.carve
  rw [window, finish_extent]
  change _ = if placed.1 < stop ∧ start < placed.finish then _ else _
  by_cases cut : placed.1 < stop ∧ start < placed.finish
  · have tail : (stop < placed.finish ∧ stop - placed.1 < placed.2.content.length) ↔
        stop < placed.finish := and_iff_left_of_imp fun beyond => by unfold finish at *; omega
    rw [if_pos cut, if_pos cut, remains, map_append]
    simp only [tail]
    refine congrArg₂ (· ++ ·) ?_ ?_
    · change _ = if placed.1 < start then _ else _
      split_ifs <;> simp [extent, map_take]
    · split_ifs <;> simp [extent, map_drop]
  · rw [if_neg cut, if_neg cut, map_singleton]

theorem mem_remains {start stop : Nat} {placed part : Placed} (member : part ∈ remains start stop placed) :
    part.1 = placed.1 ∧ placed.1 < start ∨ part.1 = stop ∧ stop < placed.finish := by
  unfold remains at member
  obtain left | right := mem_append.mp member
  · split_ifs at left with before
    · obtain rfl := mem_singleton.mp left
      exact .inl ⟨rfl, before⟩
    · cases left
  · split_ifs at right with after
    · obtain rfl := mem_singleton.mp right
      exact .inr ⟨rfl, after.1⟩
    · cases right

section Writes

variable {file : File} {start stop : Nat}

theorem mem_affected {placed : Placed} : placed ∈ file.affected start stop ↔
    placed ∈ file.cache.entries ∧ placed.1 < max stop 1 ∧ start < placed.finish := by
  rw [affected, mem_filter, decide_eq_true_iff]

variable (tiled : Extent.Tiled file.extents) (some : start < stop)

include tiled

theorem finish_le {left right : Placed} (first : left ∈ file.cache.entries)
    (second : right ∈ file.cache.entries) (below : left.1 < right.1) : left.finish ≤ right.1 := by
  rw [← left.finish_extent]
  exact tiled.separate _ (mem_map_of_mem first) _ (mem_map_of_mem second) below

include some

theorem pairwise_leftovers : (file.cache.entries.flatMap (leftovers start stop)).Pairwise
    fun left right => left.1 < right.1 := by
  have within {placed part : Placed} (inside : placed ∈ file.cache.entries)
      (member : part ∈ leftovers start stop placed) : placed.1 ≤ part.1 ∧ part.1 < placed.finish := by
    have proper := tiled.inhabited _ (mem_map_of_mem inside)
    rw [finish_extent] at proper
    change placed.1 < _ at proper
    unfold leftovers at member
    split_ifs at member with cut
    · have := mem_remains member
      omega
    · cases mem_singleton.mp member
      exact ⟨le_rfl, proper⟩
  refine pairwise_flatMap.mpr ⟨fun placed _ => ?_, ?_⟩
  · unfold leftovers remains
    split_ifs <;> simp
    omega
  · refine List.Pairwise.imp_of_mem (fun {left right} first second below here inLeft there inRight => ?_)
      file.cache.ascending
    have ends := finish_le tiled first second below
    have part := within first inLeft
    have part' := within second inRight
    omega

theorem pairwise_remains : ((file.affected start stop).flatMap (remains start stop)).Pairwise
    fun left right => left.1 < right.1 := by
  have cut : (file.affected start stop).flatMap (remains start stop) =
      (file.affected start stop).flatMap (leftovers start stop) :=
    flatMap_congr fun placed member => (if_pos (mem_affected.mp member).2).symm
  rw [cut]
  exact (pairwise_leftovers tiled some).sublist (filter_sublist.flatMap _)

theorem mem_splitAround {placed : Placed} : placed ∈ (file.splitAround start stop).entries ↔
      ∃ present ∈ file.cache.entries, placed ∈ leftovers start stop present := by
  let parts : SortedMap Nat ByteRange := ⟨_, pairwise_remains tiled some⟩
  have inParts : placed ∈ parts.entries ↔
      ∃ present ∈ file.affected start stop, placed ∈ remains start stop present := mem_flatMap
  -- A kept range starts neither where a cut one does nor at the end of the window.
  have fresh (kept : placed ∈ file.cache.entries) (outside : placed ∉ file.affected start stop) :
      parts.lookup placed.1 = none := by
    refine Option.eq_none_iff_forall_ne_some.mpr fun range found => ?_
    obtain ⟨present, cut, part⟩ := mem_flatMap.mp (lookup_eq_some_iff.mp found)
    have inside := (mem_affected.mp cut).1
    obtain ⟨same, -⟩ | ⟨same, beyond⟩ := mem_remains part
    · exact outside (eq_of_mem inside kept same.symm ▸ cut)
    · have := finish_le tiled inside kept (by have := (mem_affected.mp cut).2; omega)
      omega
  have split : placed ∈ (file.splitAround start stop).entries ↔ parts.lookup placed.1 = .some placed.2 ∨
      parts.lookup placed.1 = none ∧ (if placed.1 ∈ (file.affected start stop).map Prod.fst then none
          else file.cache.lookup placed.1) = .some placed.2 := by
    rw [← SortedMap.lookup_eq_some_iff, splitAround, lookup_foldl_insert placed.1 (pairwise_remains tiled some),
      lookup_foldl_erase, Option.or_eq_some_iff]
    rfl
  have starts (kept : placed ∈ file.cache.entries) :
      placed.1 ∈ (file.affected start stop).map Prod.fst ↔ placed ∈ file.affected start stop := by
    refine ⟨fun member => ?_, mem_map_of_mem⟩
    obtain ⟨present, cut, same⟩ := mem_map.mp member
    exact eq_of_mem (mem_affected.mp cut).1 kept same ▸ cut
  rw [split]
  constructor
  · rintro (found | ⟨-, found⟩)
    · obtain ⟨present, cut, part⟩ := inParts.mp (lookup_eq_some_iff.mp found)
      obtain ⟨inside, window⟩ := mem_affected.mp cut
      exact ⟨present, inside, by rwa [leftovers, if_pos window]⟩
    · split_ifs at found with cut
      have kept : placed ∈ file.cache.entries := lookup_eq_some_iff.mp found
      refine ⟨placed, kept, ?_⟩
      rw [leftovers, if_neg fun window => cut ((starts kept).mpr (mem_affected.mpr ⟨kept, window⟩))]
      exact mem_singleton_self placed
  · rintro ⟨present, inside, part⟩
    unfold leftovers at part
    split_ifs at part with window
    · exact .inl (lookup_eq_some_iff.mpr (inParts.mpr ⟨present, mem_affected.mpr ⟨inside, window⟩, part⟩))
    · obtain rfl := mem_singleton.mp part
      have outside : placed ∉ file.affected start stop := fun cut => window (mem_affected.mp cut).2
      refine .inr ⟨fresh inside outside, ?_⟩
      rw [if_neg fun cut => outside ((starts inside).mp cut)]
      exact lookup_of_mem inside

end Writes

section Write

variable {file : File} (tiled : Extent.Tiled file.extents) (offset : Nat) {content : Bytes}
  (some : content ≠ []) (id : EntryHash)

include tiled some

theorem leftovers_ne {present placed : Placed} (inside : present ∈ file.cache.entries)
    (part : placed ∈ leftovers offset (offset + content.length) present) : placed.1 ≠ offset := by
  have size := length_pos_iff.mpr some
  have proper := tiled.inhabited _ (mem_map_of_mem inside)
  rw [finish_extent] at proper
  unfold leftovers at part
  split_ifs at part with window
  · have := mem_remains part
    omega
  · obtain rfl := mem_singleton.mp part
    intro same
    change placed.1 < _ at proper
    omega

theorem mem_extents_write (extent : Extent (UInt8 × EntryHash)) :
    extent ∈ (file.write offset content id).extents ↔
      extent ∈ Extent.overwrite offset (content.map (·, id)) file.extents := by
  have window : offset < offset + content.length :=
    Nat.lt_add_of_pos_right (length_pos_iff.mpr some)
  have carved (placed : Placed) : (leftovers offset (offset + content.length) placed).map Placed.extent =
      placed.extent.carve offset (offset + (content.map (·, id)).length) := by
    rw [map_extent_leftovers window, length_map]
  rw [Extent.mem_overwrite, extents, mem_map]
  constructor
  · rintro ⟨placed, member, rfl⟩
    obtain rfl | ⟨-, split⟩ := mem_insert.mp member
    · exact .inr rfl
    · obtain ⟨present, inside, part⟩ := (mem_splitAround tiled window).mp split
      exact .inl ⟨_, mem_map_of_mem inside, carved present ▸ mem_map_of_mem part⟩
  · rintro (⟨_, listed, part⟩ | rfl)
    · obtain ⟨present, inside, rfl⟩ := mem_map.mp listed
      rw [← carved, mem_map] at part
      obtain ⟨placed, part, rfl⟩ := part
      exact ⟨placed, mem_insert.mpr (.inr ⟨leftovers_ne tiled offset some inside part,
        (mem_splitAround tiled window).mpr ⟨present, inside, part⟩⟩), rfl⟩
    · exact ⟨(offset, _), mem_insert.mpr (.inl rfl), rfl⟩

theorem tiled_write : Extent.Tiled (file.write offset content id).extents :=
  (tiled.overwrite offset (by simpa using some)).congr (mem_extents_write tiled offset some id)

theorem reaches_write (reaches : Extent.Reaches file.extents file.length) :
    Extent.Reaches (file.write offset content id).extents (file.write offset content id).length := by
  have written := reaches.overwrite tiled offset (content.map (·, id))
  rw [length_map] at written
  exact written.congr (mem_extents_write tiled offset some id)

end Write

end File

end Ldgr.Sim
