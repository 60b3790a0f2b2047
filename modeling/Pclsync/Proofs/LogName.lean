import Pclsync.Crypto.LogName

/-! Which task a log is taken to belong to: the first byte of the id is skipped, and the letter and the end of the name count as the
last one. -/

namespace Pclsync.Proofs.LogName
open Pclsync.Crypto.LogName Library

section
variable {bytes rest : List UInt8} {byte : UInt8} {kind : Char} {taskid mul last : ℕ}

theorem hexDigit_spec : ∀ n < 16, isxdigit (hexDigit n) = true ∧ convXdigit (hexDigit n) = n := by decide

/-- Two digits stand for their byte. -/
theorem digits_spec (byte : UInt8) :
    (isxdigit (hexDigit (byte.toNat / 16)) && isxdigit (hexDigit (byte.toNat % 16))) = true ∧
      u32 (convXdigit (hexDigit (byte.toNat / 16)) * 16 + convXdigit (hexDigit (byte.toNat % 16))) = byte.toNat := by
  have small := byte.toNat_lt
  obtain ⟨isHigh, high⟩ := hexDigit_spec (byte.toNat / 16) (by omega)
  obtain ⟨isLow, low⟩ := hexDigit_spec (byte.toNat % 16) (by omega)
  refine ⟨by rw [isHigh, isLow]; rfl, ?_⟩
  rw [high, low, u32]
  omega

/-- What the letter of a name counts for when it is read as a digit. -/
def letter (kind : Char) : ℕ := u32 (convXdigit kind * 16 + convXdigit (Char.ofNat 0))

theorem binhex_cons : binhex (byte :: rest) = hexDigit (byte.toNat / 16) :: hexDigit (byte.toNat % 16) :: binhex rest := rfl

/-- Every byte is read one place too late. -/
theorem taskLoop_binhex (reduced : taskid < 2 ^ 64) :
    taskLoop taskid mul (binhex (byte :: bytes) ++ [kind]) = u64 (taskid + mul * (leNumber bytes + 256 ^ bytes.length * letter kind)) := by
  induction bytes generalizing byte taskid mul with
  | nil =>
    rw [binhex_cons, List.cons_append, List.cons_append, taskLoop, if_pos (digits_spec byte).1]
    simp [binhex, taskLoop, leNumber, letter, charAt]
  | cons next rest ih =>
    rw [binhex_cons, List.cons_append, List.cons_append, taskLoop, if_pos (digits_spec byte).1]
    have read : u32 (convXdigit (charAt (binhex (next :: rest) ++ [kind]) 0) * 16 + convXdigit (charAt (binhex (next :: rest) ++ [kind]) 1)) =
        next.toNat := (digits_spec next).2
    have decoded := @ih next (u64 (taskid + mul * next.toNat)) (u64 (mul * 256)) (Nat.mod_lt _ (by decide))
    rw [read, decoded, leNumber, List.length_cons]
    have first : u64 (taskid + mul * next.toNat) ≡ taskid + mul * next.toNat [MOD 2 ^ 64] := Nat.mod_modEq _ _
    have second : u64 (mul * 256) ≡ mul * 256 [MOD 2 ^ 64] := Nat.mod_modEq _ _
    have regroup : taskid + mul * next.toNat + mul * 256 * (leNumber rest + 256 ^ rest.length * letter kind) =
        taskid + mul * (next.toNat + 256 * leNumber rest + 256 ^ (rest.length + 1) * letter kind) := by ring
    have sum := first.add (second.mul_right (leNumber rest + 256 ^ rest.length * letter kind))
    rw [regroup] at sum
    exact sum

end

end Pclsync.Proofs.LogName
