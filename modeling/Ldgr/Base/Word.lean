import Mathlib

/-! 64-bit words: their order and saturating arithmetic. -/

namespace Ldgr.Base

def saturatingAdd (left right : UInt64) : UInt64 :=
  UInt64.ofNat (min (left.toNat + right.toNat) (2 ^ 64 - 1))

theorem toNat_saturatingAdd (left right : UInt64) :
    (saturatingAdd left right).toNat = min (left.toNat + right.toNat) (2 ^ 64 - 1) := by
  rw [saturatingAdd, UInt64.toNat_ofNat_of_lt']
  show min _ _ < 2 ^ 64
  omega

def wordMax : UInt64 := UInt64.ofNat (2 ^ 64 - 1)

theorem toNat_wordMax : wordMax.toNat = 2 ^ 64 - 1 := rfl

instance instLinearOrderUInt64 : LinearOrder UInt64 where
  le_refl word := Nat.le_refl word.toNat
  le_trans _ _ _ := Nat.le_trans
  lt_iff_le_not_ge _ _ := Nat.lt_iff_le_and_not_ge
  le_antisymm _ _ below above := UInt64.toNat_inj.mp (Nat.le_antisymm below above)
  le_total left right := Nat.le_total left.toNat right.toNat
  toDecidableLE := inferInstance
  toDecidableEq := inferInstance
  toDecidableLT := inferInstance

theorem toNat_add_one {word : UInt64} (room : word.toNat + 1 < 2 ^ 64) : (word + 1).toNat = word.toNat + 1 := by
  rw [UInt64.toNat_add]
  exact Nat.mod_eq_of_lt room

theorem lt_add_one {word : UInt64} (room : word.toNat + 1 < 2 ^ 64) : word < word + 1 := by
  rw [UInt64.lt_iff_toNat_lt, toNat_add_one room]
  exact Nat.lt_succ_self _

end Ldgr.Base
