import Mathlib

/-! Text written backwards from the end of a buffer, and numbers written so digit
by digit. A store outside of the buffer stops the writer. -/

namespace Pclsync.Library.Backward

/-- Why a writer stops: it would leave the buffer, or it gives up. -/
inductive Stop where
  | outside
  | refused
deriving DecidableEq, Repr

/-- A buffer and the index of the next byte to write, a `size_t`. -/
structure Out where
  buff : ℕ → UInt8
  off : ℕ

/-- `buff[off--] = byte` -/
def put (size : ℕ) (out : Out) (byte : UInt8) : Except Stop Out :=
  if out.off < size then
    .ok { buff := fun place => if place = out.off then byte else out.buff place
          off := (out.off + 2 ^ 64 - 1) % 2 ^ 64 }
  else .error .outside

/-- `memcpy(buff + start, bytes, ..)` -/
def copy (size : ℕ) (buff : ℕ → UInt8) (start : ℕ) (bytes : List UInt8) : Except Stop (ℕ → UInt8) :=
  if start + bytes.length ≤ size then
    .ok fun place => if start ≤ place ∧ place < start + bytes.length then bytes.getD (place - start) 0 else buff place
  else .error .outside

/-- The bytes from `start` to the end of the buffer. -/
def suffix (size : ℕ) (buff : ℕ → UInt8) (start : ℕ) : List UInt8 :=
  (List.range (size - start)).map fun place => buff (start + place)

/-- `text` has been written, up to the last byte of the buffer. -/
structure Holds (size : ℕ) (out : Out) (text : List UInt8) : Prop where
  room : out.off + 1 + text.length = size
  bytes : suffix size out.buff (out.off + 1) = text

section
variable {size start : ℕ} {out : Out} {buff : ℕ → UInt8} {text bytes : List UInt8} {byte : UInt8}

theorem length_suffix : (suffix size buff start).length = size - start := by
  rw [suffix, List.length_map, List.length_range]

theorem suffix_cons (inside : start < size) : suffix size buff start = buff start :: suffix size buff (start + 1) := by
  rw [suffix, show size - start = size - (start + 1) + 1 by omega, List.range_succ_eq_map, List.map_cons, List.map_map,
    Nat.add_zero, suffix]
  congr 1
  apply List.map_congr_left
  intro place _
  simp only [Function.comp, Nat.add_assoc, Nat.succ_eq_add_one, Nat.add_comm place]

theorem suffix_congr {other : ℕ → UInt8} (same : ∀ place ≥ start, buff place = other place) :
    suffix size buff start = suffix size other start := by
  apply List.map_congr_left
  intro place _
  exact same _ (Nat.le_add_right _ _)

/-- The decrement of a positive index. -/
theorem pred_wrap {number : ℕ} (positive : 0 < number) (bound : number < size) (small : size ≤ 2 ^ 64) :
    (number + 2 ^ 64 - 1) % 2 ^ 64 = number - 1 := by
  have past : number + 2 ^ 64 - 1 = number - 1 + 2 ^ 64 := by omega
  have below : number - 1 < 2 ^ 64 := by omega
  rw [past, Nat.add_mod_right]
  exact Nat.mod_eq_of_lt below

theorem put_holds (holds : Holds size out text) (positive : 0 < out.off) (small : size ≤ 2 ^ 64) (byte : UInt8) :
    ∃ next, put size out byte = .ok next ∧ next.off = out.off - 1 ∧ Holds size next (byte :: text) := by
  have room := holds.room
  have off := pred_wrap positive (show out.off < size by omega) small
  rw [put, if_pos (by omega)]
  refine ⟨_, rfl, off, ?_⟩
  constructor
  · dsimp only
    rw [off, List.length_cons]
    omega
  · have rest : suffix size (fun place => if place = out.off then byte else out.buff place) (out.off + 1) = text := by
      rw [← holds.bytes]
      exact suffix_congr fun place after => if_neg (by omega)
    dsimp only
    rw [off, Nat.sub_add_cancel positive, suffix_cons (by omega), rest, if_pos rfl]

/-- A copy right before what is written, or over its first bytes. -/
theorem copy_suffix (fits : start + bytes.length ≤ size) : ∃ next, copy size buff start bytes = .ok next ∧
    suffix size next start = bytes ++ suffix size buff (start + bytes.length) := by
  refine ⟨_, by rw [copy, if_pos fits], ?_⟩
  induction bytes generalizing start with
  | nil =>
    rw [List.nil_append, List.length_nil, Nat.add_zero]
    exact suffix_congr fun place _ => if_neg (by simp)
  | cons first bytes ih =>
    rw [List.length_cons] at fits ⊢
    rw [suffix_cons (by omega), if_pos ⟨le_rfl, by omega⟩, Nat.sub_self, List.getD_cons_zero, List.cons_append,
      ← Nat.add_assoc, Nat.add_right_comm, ← @ih (start + 1) (by omega)]
    congr 1
    apply suffix_congr
    intro place after
    by_cases inside : place < start + (bytes.length + 1)
    · rw [if_pos ⟨by omega, by omega⟩, if_pos ⟨after, by omega⟩, show place - start = place - (start + 1) + 1 by omega,
        List.getD_cons_succ]
    · rw [if_neg (by omega), if_neg (by omega)]

end

section Digits

/-- A number in decimal. -/
def decimal (number : ℕ) : List UInt8 :=
  if number < 10 then [UInt8.ofNat (48 + number)]
  else decimal (number / 10) ++ [UInt8.ofNat (48 + number % 10)]
termination_by number

/-- `do { buff[off--] = '0' + x % 10; x /= 10; } while (x);` -/
def putDigits (size number : ℕ) (out : Out) : Except Stop Out :=
  match put size out (UInt8.ofNat (48 + number % 10)) with
  | .error stop => .error stop
  | .ok out => if 0 < number / 10 then putDigits size (number / 10) out else .ok out
termination_by number
decreasing_by omega

variable {size number : ℕ} {out : Out} {text : List UInt8}

theorem decimal_pos (number : ℕ) : 0 < (decimal number).length := by
  rw [decimal]
  split <;> simp

theorem length_decimal {width : ℕ} (positive : 0 < width) (small : number < 10 ^ width) :
    (decimal number).length ≤ width := by
  induction width generalizing number with
  | zero => omega
  | succ width ih =>
    rw [decimal]
    split
    · exact positive
    · rename_i large
      rw [List.length_append, List.length_singleton]
      have smaller : number / 10 < 10 ^ width := by
        rw [pow_succ] at small
        exact Nat.div_lt_of_lt_mul (by omega)
      have wide : 0 < width := by
        rcases Nat.eq_zero_or_pos width with rfl | wide
        · rw [pow_zero] at smaller
          omega
        · exact wide
      exact Nat.succ_le_succ (ih wide smaller)

/-- No digit is a zero byte. -/
theorem decimal_ne_zero : ∀ digit ∈ decimal number, digit ≠ 0 := by
  have digit_ne : ∀ digit < 10, UInt8.ofNat (48 + digit) ≠ 0 := by decide
  induction number using Nat.strong_induction_on with
  | _ number ih =>
    rw [decimal]
    split
    · rename_i small
      simpa using digit_ne number small
    · intro digit member
      rcases List.mem_append.mp member with first | last
      · exact ih _ (by omega) digit first
      · rw [List.mem_singleton.mp last]
        exact digit_ne _ (Nat.mod_lt _ (by decide))

theorem putDigits_holds (holds : Holds size out text) (room : (decimal number).length ≤ out.off) (small : size ≤ 2 ^ 64) :
    ∃ next, putDigits size number out = .ok next ∧ next.off = out.off - (decimal number).length ∧
      Holds size next (decimal number ++ text) := by
  induction number using Nat.strong_induction_on generalizing out text with
  | _ number ih =>
    have some_digit := decimal_pos number
    obtain ⟨next, done, off, written⟩ := put_holds holds (by omega) small (UInt8.ofNat (48 + number % 10))
    rw [putDigits, done]
    simp only
    by_cases one : number < 10
    · rw [if_neg (by omega)]
      have digits : decimal number = [UInt8.ofNat (48 + number % 10)] := by
        rw [decimal, if_pos one, Nat.mod_eq_of_lt one]
      rw [digits]
      exact ⟨next, rfl, off, written⟩
    · rw [if_pos (by omega)]
      have digits : decimal number = decimal (number / 10) ++ [UInt8.ofNat (48 + number % 10)] := by
        rw [decimal, if_neg one]
      rw [digits, List.length_append, List.length_singleton] at room ⊢
      obtain ⟨last, rest, further, full⟩ := ih (number / 10) (by omega) written (by omega)
      refine ⟨last, rest, by omega, ?_⟩
      rw [List.append_assoc, List.singleton_append]
      exact full

end Digits
end Pclsync.Library.Backward
