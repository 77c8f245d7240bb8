import Mathlib.Algebra.Order.Ring.Nat
import Mathlib.Tactic.Ring

/-! Fixed-width little-endian numbers and the fields of a byte string.

A field is read at a byte offset. The lemmas recover the number from any byte
string that has its encoding at that offset, whatever stands before and after.
-/

set_option autoImplicit false

namespace Bytes

def little : Nat → Nat → List UInt8
  | 0, _ => []
  | width + 1, n => UInt8.ofNat n :: little width (n / 256)

def value : List UInt8 → Nat
  | [] => 0
  | b :: rest => b.toNat + 256 * value rest

def field (offset width : Nat) (bytes : List UInt8) : Nat :=
  value ((bytes.drop offset).take width)

@[simp] theorem length_little (width n : Nat) : (little width n).length = width := by
  induction width generalizing n with
  | zero => rfl
  | succ width ih => simp [little, ih]

theorem value_little (width n : Nat) : value (little width n) = n % 256 ^ width := by
  induction width generalizing n with
  | zero => simp [little, value, Nat.mod_one]
  | succ width ih =>
    have low : (UInt8.ofNat n).toNat = n % 256 := UInt8.toNat_ofNat'
    rw [little, value, ih, low, pow_succ', Nat.mod_mul]

theorem little_value (bytes : List UInt8) : little bytes.length (value bytes) = bytes := by
  induction bytes with
  | nil => rfl
  | cons b rest ih =>
    have low : (b.toNat + 256 * value rest) % 256 = b.toNat := by
      have byte : b.toNat < 256 := b.toNat_lt
      omega
    have high : (b.toNat + 256 * value rest) / 256 = value rest := by
      have byte : b.toNat < 256 := b.toNat_lt
      omega
    have head : UInt8.ofNat (b.toNat + 256 * value rest) = b := by
      apply UInt8.toNat_inj.mp
      rw [UInt8.toNat_ofNat', low]
    rw [List.length_cons, value, little, head, high, ih]

theorem value_lt (bytes : List UInt8) : value bytes < 256 ^ bytes.length := by
  induction bytes with
  | nil => simp [value]
  | cons b rest ih =>
    have byte : b.toNat < 256 := b.toNat_lt
    rw [value, List.length_cons, pow_succ]
    omega

theorem field_lt (offset width : Nat) (bytes : List UInt8) : field offset width bytes < 256 ^ width :=
  Nat.lt_of_lt_of_le (value_lt _) (Nat.pow_le_pow_right (by omega) (List.length_take_le _ _))

theorem little_field {offset width : Nat} {bytes : List UInt8} (room : offset + width ≤ bytes.length) :
    little width (field offset width bytes) = (bytes.drop offset).take width := by
  have size : ((bytes.drop offset).take width).length = width := by
    rw [List.length_take, List.length_drop]
    omega
  have encoded := little_value ((bytes.drop offset).take width)
  rwa [size] at encoded

/-- A field that the first `offset + width` bytes determine does not change
when more bytes follow. -/
theorem field_append {offset width : Nat} {bytes : List UInt8} (rest : List UInt8)
    (room : offset + width ≤ bytes.length) :
    field offset width (bytes ++ rest) = field offset width bytes := by
  unfold field
  rw [List.drop_append_of_le_length (by omega), List.take_append_of_le_length (by simp; omega)]

/-- The number encoded in one of several consecutive pieces is read at the
offset where the pieces before it end. -/
theorem field_flatten {offset width n : Nat} {pieces : List (List UInt8)} (inx : Nat)
    (piece : pieces[inx]? = some (little width n)) (place : ((pieces.take inx).map List.length).sum = offset) :
    field offset width pieces.flatten = n % 256 ^ width := by
  obtain ⟨bound, piece⟩ := List.getElem?_eq_some_iff.mp piece
  have split : pieces.flatten =
      (pieces.take inx).flatten ++ (little width n ++ (pieces.drop (inx + 1)).flatten) := by
    conv_lhs => rw [← List.take_append_drop inx pieces, List.flatten_append]
    rw [List.drop_eq_getElem_cons bound, piece, List.flatten_cons]
  rw [← place, ← List.length_flatten, field, split, List.drop_left,
    List.take_append_of_le_length (by simp), List.take_of_length_le (by simp), value_little]

@[simp] theorem ofNat_value_little_eight (n : UInt64) : UInt64.ofNat (n.toNat % 256 ^ 8) = n := by
  have bound : n.toNat < 256 ^ 8 := n.toNat_lt
  rw [Nat.mod_eq_of_lt bound, UInt64.ofNat_toNat]

@[simp] theorem ofNat_value_little_four (n : UInt32) : UInt32.ofNat (n.toNat % 256 ^ 4) = n := by
  have bound : n.toNat < 256 ^ 4 := n.toNat_lt
  rw [Nat.mod_eq_of_lt bound, UInt32.ofNat_toNat]

@[simp] theorem ofNat_value_little_one (n : UInt8) : UInt8.ofNat (n.toNat % 256 ^ 1) = n := by
  have bound : n.toNat < 256 ^ 1 := n.toNat_lt
  rw [Nat.mod_eq_of_lt bound, UInt8.ofNat_toNat]

end Bytes
