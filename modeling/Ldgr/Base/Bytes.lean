import Mathlib

/-! Fixed-width integers as byte strings, in both byte orders, and windows into byte strings. -/

namespace Ldgr.Base

abbrev Bytes := List UInt8

abbrev FixedBytes (length : Nat) := { content : Bytes // content.length = length }

theorem length_repeated (byte : UInt8) : (List.replicate 32 byte).length = 32 :=
  List.length_replicate

theorem length_zeros : (List.replicate 32 (0 : UInt8)).length = 32 :=
  length_repeated 0

/-- The low `width` bytes of `value`, least significant first. -/
def leBytes : Nat → Nat → Bytes
  | 0, _ => []
  | width + 1, value => UInt8.ofNat value :: leBytes width (value / 256)

def leNat : Bytes → Nat
  | [] => 0
  | byte :: rest => byte.toNat + 256 * leNat rest

def beBytes (width value : Nat) : Bytes :=
  (leBytes width value).reverse

def beNat (bytes : Bytes) : Nat :=
  leNat bytes.reverse

@[simp] theorem length_leBytes (width value : Nat) : (leBytes width value).length = width := by
  induction width generalizing value with
  | zero => rfl
  | succ width ih => simp [leBytes, ih]

@[simp] theorem length_beBytes (width value : Nat) : (beBytes width value).length = width := by
  simp [beBytes]

theorem leNat_lt (bytes : Bytes) : leNat bytes < 256 ^ bytes.length := by
  induction bytes with
  | nil => simp [leNat]
  | cons byte rest ih =>
    have small := byte.toNat_lt
    simp only [leNat, List.length_cons, pow_succ]
    omega

theorem beNat_lt (bytes : Bytes) : beNat bytes < 256 ^ bytes.length := by
  simpa [beNat] using leNat_lt bytes.reverse

theorem leNat_leBytes_mod (width value : Nat) : leNat (leBytes width value) = value % 256 ^ width := by
  induction width generalizing value with
  | zero => simp [leBytes, leNat, Nat.mod_one]
  | succ width ih =>
    rw [leBytes, leNat, ih, UInt8.toNat_ofNat', pow_succ' 256 width, Nat.mod_mul]

theorem leNat_leBytes {width value : Nat} (fits : value < 256 ^ width) :
    leNat (leBytes width value) = value := by
  rw [leNat_leBytes_mod, Nat.mod_eq_of_lt fits]

theorem beNat_beBytes_mod (width value : Nat) : beNat (beBytes width value) = value % 256 ^ width := by
  rw [beNat, beBytes, List.reverse_reverse, leNat_leBytes_mod]

theorem beNat_beBytes {width value : Nat} (fits : value < 256 ^ width) :
    beNat (beBytes width value) = value := by
  rw [beNat_beBytes_mod, Nat.mod_eq_of_lt fits]

theorem leBytes_leNat (bytes : Bytes) : leBytes bytes.length (leNat bytes) = bytes := by
  induction bytes with
  | nil => rfl
  | cons byte rest ih =>
    have small := byte.toNat_lt
    have low : UInt8.ofNat (byte.toNat + 256 * leNat rest) = byte := by
      apply UInt8.toNat.inj
      rw [UInt8.toNat_ofNat']
      omega
    have high : (byte.toNat + 256 * leNat rest) / 256 = leNat rest := by omega
    simp only [List.length_cons, leBytes, leNat, low, high, ih]

theorem beBytes_beNat (bytes : Bytes) : beBytes bytes.length (beNat bytes) = bytes := by
  have recovered := leBytes_leNat bytes.reverse
  rw [List.length_reverse] at recovered
  simp [beBytes, beNat, recovered]

/-! ## Windows -/

def slice (bytes : Bytes) (offset width : Nat) : Bytes :=
  (bytes.drop offset).take width

def leAt (width : Nat) (bytes : Bytes) (offset : Nat) : Nat :=
  leNat (slice bytes offset width)

def beAt (width : Nat) (bytes : Bytes) (offset : Nat) : Nat :=
  beNat (slice bytes offset width)

/-- A window that lies exactly over `middle`. -/
theorem slice_append {front middle : Bytes} (rest : Bytes) {offset width : Nat}
    (start : front.length = offset) (size : middle.length = width) :
    slice (front ++ (middle ++ rest)) offset width = middle := by
  rw [slice, List.drop_left' start, List.take_left' size]

theorem leAt_append {front : Bytes} (rest : Bytes) {offset width value : Nat}
    (start : front.length = offset) (fits : value < 256 ^ width) :
    leAt width (front ++ (leBytes width value ++ rest)) offset = value := by
  rw [leAt, slice_append rest start (length_leBytes ..), leNat_leBytes fits]

theorem beAt_append {front : Bytes} (rest : Bytes) {offset width value : Nat}
    (start : front.length = offset) (fits : value < 256 ^ width) :
    beAt width (front ++ (beBytes width value ++ rest)) offset = value := by
  rw [beAt, slice_append rest start (length_beBytes ..), beNat_beBytes fits]

theorem drop_eq_slice_append (bytes : Bytes) (offset width : Nat) :
    bytes.drop offset = slice bytes offset width ++ bytes.drop (offset + width) := by
  rw [slice, ← List.drop_drop, List.take_append_drop]

theorem length_slice {bytes : Bytes} {offset width : Nat} (inside : offset + width ≤ bytes.length) :
    (slice bytes offset width).length = width := by
  rw [slice, List.length_take, List.length_drop]
  omega

theorem beBytes_beAt (bytes : Bytes) (offset width : Nat) (inside : offset + width ≤ bytes.length) :
    beBytes width (beAt width bytes offset) = slice bytes offset width := by
  have recovered := beBytes_beNat (slice bytes offset width)
  rwa [length_slice inside] at recovered

def hexDebug (bytes : Bytes) : String :=
  let digit (value : Nat) : String := String.singleton (Nat.digitChar value)
  "[" ++ ", ".intercalate (bytes.map fun byte => digit (byte.toNat / 16) ++ digit (byte.toNat % 16)) ++
    "]"

end Ldgr.Base
