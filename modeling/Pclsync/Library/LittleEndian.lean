import Mathlib

/-! Little-endian numbers in byte strings. -/

namespace Pclsync.Library

/-- The number that bytes stand for, lowest first. -/
def leNumber : List UInt8 → ℕ
  | [] => 0
  | byte :: rest => byte.toNat + 256 * leNumber rest

/-- The lowest `width` bytes of a number. -/
def leBytes : ℕ → ℕ → List UInt8
  | 0, _ => []
  | width + 1, n => UInt8.ofNat n :: leBytes width (n / 256)

@[simp] theorem length_leBytes (width n : ℕ) : (leBytes width n).length = width := by
  induction width generalizing n with
  | zero => rfl
  | succ width ih => rw [leBytes, List.length_cons, ih]

theorem leNumber_leBytes (width n : ℕ) : leNumber (leBytes width n) = n % 256 ^ width := by
  induction width generalizing n with
  | zero => rw [pow_zero, Nat.mod_one, leBytes, leNumber]
  | succ width ih =>
    rw [leBytes, leNumber, ih, pow_succ', Nat.mod_mul, UInt8.toNat_ofNat']

@[simp] theorem take_leBytes (width n : ℕ) (rest : List UInt8) :
    (leBytes width n ++ rest).take width = leBytes width n :=
  List.take_left' (length_leBytes width n)

@[simp] theorem drop_leBytes (width more n : ℕ) (rest : List UInt8) :
    (leBytes width n ++ rest).drop (width + more) = rest.drop more := by
  rw [← List.drop_drop, List.drop_left' (length_leBytes width n)]

theorem leNumber_lt (bytes : List UInt8) : leNumber bytes < 256 ^ bytes.length := by
  induction bytes with
  | nil => exact Nat.one_pos
  | cons byte rest ih =>
    have small := byte.toNat_lt
    rw [leNumber, List.length_cons, pow_succ']
    omega

end Pclsync.Library
