import Mathlib.Data.Nat.Digits.Lemmas

/-! The decimal digits of a number, the highest first. -/

namespace Pclsync.Library

def decimal (num : ℕ) : List ℕ := if num = 0 then [0] else (Nat.digits 10 num).reverse

namespace Decimal
variable {num : ℕ}

theorem decimal_small (small : num < 10) : decimal num = [num] := by
  unfold decimal
  split
  next zero => rw [zero]
  next positive => rw [Nat.digits_of_lt 10 num positive small, List.reverse_singleton]

theorem decimal_large (large : 10 ≤ num) : decimal num = decimal (num / 10) ++ [num % 10] := by
  have positive : 0 < num := by omega
  have upper : num / 10 ≠ 0 := by omega
  unfold decimal
  rw [if_neg positive.ne', if_neg upper, Nat.digits_def' (by decide) positive, List.reverse_cons]

theorem digit_le {digit : ℕ} (member : digit ∈ decimal num) : digit ≤ 9 := by
  unfold decimal at member
  split at member
  next =>
    rw [List.mem_singleton] at member
    omega
  next =>
    have small := Nat.digits_lt_base (by decide : 1 < 10) (List.mem_reverse.mp member)
    omega

theorem length_decimal : (decimal num).length = Nat.log 10 num + 1 := by
  unfold decimal
  split
  next zero => rw [zero, Nat.log_zero_right, List.length_singleton]
  next positive => rw [List.length_reverse, Nat.digits_len 10 num (by decide) positive]

theorem length_le {digits : ℕ} (small : num < 10 ^ (digits + 1)) : (decimal num).length ≤ digits + 1 := by
  rw [length_decimal]
  exact Nat.succ_le_succ (Nat.le_of_lt_succ (Nat.log_lt_of_lt_pow' (Nat.succ_ne_zero digits) small))

theorem length_pos : 0 < (decimal num).length := by
  rw [length_decimal]
  exact Nat.succ_pos _

theorem decimal_injective : decimal.Injective := by
  intro num other same
  unfold decimal at same
  have nonzero : ∀ {number : ℕ}, number ≠ 0 → (Nat.digits 10 number).reverse ≠ [0] := by
    intro number positive alone
    rw [List.reverse_eq_iff, List.reverse_singleton] at alone
    have back := Nat.ofDigits_digits 10 number
    rw [alone] at back
    exact positive (by rw [← back]; rfl)
  split at same
  next zero =>
    split at same
    next also => rw [zero, also]
    next positive => exact absurd same.symm (nonzero positive)
  next positive =>
    split at same
    next => exact absurd same (nonzero positive)
    next => exact Nat.digits_inj_iff.mp (List.reverse_injective same)

end Decimal
end Pclsync.Library
