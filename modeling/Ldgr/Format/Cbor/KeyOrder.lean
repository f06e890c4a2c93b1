import Ldgr.Format.Cbor.ItemsProperties

/-! The canonical order of map keys: short keys first, then bytewise. -/

namespace Ldgr.Format.Cbor

open Ldgr.Base List

theorem compareCanonicalKeys_eq (left right : Bytes) :
    compareCanonicalKeys left right = compareLex (compareOn length) compare left right := by
  unfold compareCanonicalKeys compareLex compareOn
  split
  · rename_i differ
    cases order : compare left.length right.length with
    | lt => rfl
    | eq => exact absurd (Nat.compare_eq_eq.mp order) differ
    | gt => rfl
  · rename_i same
    rw [not_not] at same
    rw [same, Nat.compare_eq_eq.mpr rfl]
    rfl

theorem compareCanonicalKeys_lt_trans {first second third : Bytes}
    (before : compareCanonicalKeys first second = .lt)
    (after : compareCanonicalKeys second third = .lt) :
    compareCanonicalKeys first third = .lt := by
  simp only [compareCanonicalKeys_eq] at *
  exact Std.TransCmp.lt_trans before after

theorem compareCanonicalKeys_eq_iff {left right : Bytes} :
    compareCanonicalKeys left right = .eq ↔ left = right := by
  rw [compareCanonicalKeys_eq, compareLex, Ordering.then_eq_eq]
  constructor
  · intro equal
    exact Std.LawfulEqCmp.eq_of_compare equal.2
  · intro same
    subst same
    exact ⟨Std.ReflCmp.compare_self, Std.ReflCmp.compare_self⟩

/-! ## Encoded integers -/

theorem compareCanonicalKeys_ne {left right : Bytes}
    (less : compareCanonicalKeys left right = .lt) : left ≠ right := by
  intro same
  rw [compareCanonicalKeys_eq_iff.mpr same] at less
  cases less

theorem compare_cons (byte other : UInt8) (left right : Bytes) : compare (byte :: left) (other :: right) =
      (compare byte.toNat other.toNat).then (compare left right) := by
  change List.compareLex compare (byte :: left) (other :: right) = _
  rw [List.compareLex_cons_cons, UInt8.compare_eq_toNat_compare_toNat]
  rfl

theorem compare_self (bytes : Bytes) : compare bytes bytes = .eq :=
  Std.ReflCmp.compare_self

theorem compare_append {left right : Bytes} (same : left.length = right.length) (first second : Bytes) :
    compare (left ++ first) (right ++ second) = (compare left right).then (compare first second) := by
  induction left generalizing right with
  | nil =>
    obtain rfl := length_eq_zero_iff.mp same.symm
    rfl
  | cons byte left ih =>
    cases right with
    | nil => cases same
    | cons other right =>
      rw [cons_append, cons_append, compare_cons, compare_cons,
        ih (Nat.succ.inj same), Ordering.then_assoc]

theorem beBytes_succ (width value : Nat) :
    beBytes (width + 1) value = beBytes width (value / 256) ++ [UInt8.ofNat value] := by
  simp [beBytes, leBytes]

theorem compare_beBytes {width left right : Nat} (less : left < right)
    (fits : right < 256 ^ width) : compare (beBytes width left) (beBytes width right) = .lt := by
  induction width generalizing left right with
  | zero =>
    rw [pow_zero] at fits
    omega
  | succ width ih =>
    have high : right / 256 < 256 ^ width := by
      rw [pow_succ] at fits
      exact Nat.div_lt_of_lt_mul (by rwa [Nat.mul_comm] at fits)
    rw [beBytes_succ, beBytes_succ, compare_append (by simp)]
    by_cases smaller : left / 256 < right / 256
    · rw [ih smaller high]
      rfl
    · have equal : left / 256 = right / 256 := by omega
      have last : (UInt8.ofNat left).toNat < (UInt8.ofNat right).toNat := by
        rw [UInt8.toNat_ofNat', UInt8.toNat_ofNat']
        omega
      rw [equal, compare_self, Ordering.eq_then, compare_cons, Nat.compare_eq_lt.mpr last]
      rfl

theorem compareCanonicalKeys_unsigned {left right : UInt64} (less : left < right) :
    compareCanonicalKeys (unsigned left) (unsigned right) = .lt := by
  rw [UInt64.lt_iff_toNat_lt] at less
  have fits := right.toNat_lt
  have wide {width : Nat} (initial : UInt8) (inside : right.toNat < 256 ^ width) :
      compareCanonicalKeys (initial :: beBytes width left.toNat)
        (initial :: beBytes width right.toNat) = .lt := by
    rw [compareCanonicalKeys, if_neg (by simp), compare_cons, Nat.compare_eq_eq.mpr rfl,
      Ordering.eq_then, compare_beBytes less inside]
  have apart {first second : Bytes} (shorter : first.length < second.length) :
      compareCanonicalKeys first second = .lt := by
    rw [compareCanonicalKeys, if_pos (Nat.ne_of_lt shorter), Nat.compare_eq_lt.mpr shorter]
  unfold unsigned major
  split_ifs
  · -- One byte each.
    rw [compareCanonicalKeys, if_neg (by simp), compare_cons]
    have bytes : (initialByte 0 left.toNat).toNat < (initialByte 0 right.toNat).toNat := by
      rw [initialByte_toNat (by omega) (by omega), initialByte_toNat (by omega) (by omega)]
      omega
    rw [Nat.compare_eq_lt.mpr bytes]
    rfl
  all_goals first
    | omega
    | exact wide _ (by omega)
    | (apply apart; simp)

/-! ## Sorted entries -/

section Sorting

variable {α : Type}

/-- The order in which the encoder sorts entries by their key bytes. -/
def KeyLe (left right : Bytes × α) : Prop :=
  compareCanonicalKeys left.1 right.1 ≠ .gt

instance : DecidableRel (KeyLe (α := α)) :=
  fun left right => inferInstanceAs (Decidable (compareCanonicalKeys left.1 right.1 ≠ .gt))

instance : Std.Total (KeyLe (α := α)) where
  total left right := by
    simp only [KeyLe, compareCanonicalKeys_eq]
    by_cases above : compareLex (compareOn length) compare left.1 right.1 = .gt
    · have below := Std.OrientedCmp.gt_iff_lt.mp above
      rw [below]
      exact .inr nofun
    · exact .inl above

instance : IsTrans (Bytes × α) KeyLe where
  trans first second third before after := by
    simp only [KeyLe, compareCanonicalKeys_eq, Ordering.ne_gt_iff_isLE] at *
    exact Std.TransCmp.isLE_trans before after

theorem ascending_of_sorted {entries : List (Bytes × α)} (sorted : entries.Pairwise KeyLe)
    (distinct : entries.IsChain fun left right => left.1 ≠ right.1) :
    entries.Pairwise fun left right => compareCanonicalKeys left.1 right.1 = .lt := by
  induction entries with
  | nil => exact .nil
  | cons first entries ih =>
    obtain ⟨least, sorted⟩ := pairwise_cons.mp sorted
    have ascending := ih sorted distinct.tail
    refine pairwise_cons.mpr ⟨fun later member => ?_, ascending⟩
    cases entries with
    | nil => cases member
    | cons second entries =>
      have next : compareCanonicalKeys first.1 second.1 = .lt := by
        have below := least second mem_cons_self
        have differs := (isChain_cons_cons.mp distinct).1
        cases order : compareCanonicalKeys first.1 second.1 with
        | lt => rfl
        | eq => exact absurd (compareCanonicalKeys_eq_iff.mp order) differs
        | gt => exact absurd order below
      obtain rfl | further := mem_cons.mp member
      · exact next
      · exact compareCanonicalKeys_lt_trans next ((pairwise_cons.mp ascending).1 later further)

theorem sorted_of_ascending {entries : List (Bytes × α)}
    (ascending : entries.Pairwise fun left right => compareCanonicalKeys left.1 right.1 = .lt) :
    entries.Pairwise KeyLe :=
  ascending.imp fun below => by rw [KeyLe, below]; exact nofun

theorem insertionSort_of_perm {entries shuffled : List (Bytes × α)}
    (ascending : entries.Pairwise fun left right => compareCanonicalKeys left.1 right.1 = .lt)
    (perm : shuffled.Perm entries) : shuffled.insertionSort KeyLe = entries := by
  have distinct : (entries.map Prod.fst).Nodup :=
    pairwise_map.mpr (ascending.imp compareCanonicalKeys_ne)
  refine List.Perm.eq_of_pairwise (fun left right inSorted inEntries before after => ?_)
    (pairwise_insertionSort _ _) (sorted_of_ascending ascending)
    ((perm_insertionSort _ _).trans perm)
  have listed := perm.mem_iff.mp ((mem_insertionSort _).mp inSorted)
  refine inj_on_of_nodup_map distinct listed inEntries ?_
  simp only [KeyLe, compareCanonicalKeys_eq, Ordering.ne_gt_iff_isLE] at before after
  exact compareCanonicalKeys_eq_iff.mp
    ((compareCanonicalKeys_eq _ _).trans (Std.OrientedCmp.isLE_antisymm before after))

end Sorting

end Ldgr.Format.Cbor
