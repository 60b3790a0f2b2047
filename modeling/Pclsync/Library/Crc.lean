import Pclsync.Library.LittleEndian

/-! Cyclic redundancy checks with the lowest bit first. A shift of the remainder is linear in exclusive or, so that
the remainder of a text can be put together from those of its parts. -/

namespace Pclsync.Library.Crc

variable {width : ℕ} (poly : BitVec width)

/-- The remainder after a bit. -/
def shift (crc : BitVec width) : BitVec width := if crc.getLsbD 0 then crc >>> 1 ^^^ poly else crc >>> 1

/-- The remainder after a number of zero bits. -/
def shifts : ℕ → BitVec width → BitVec width
  | 0, crc => crc
  | count + 1, crc => shifts count (shift poly crc)

/-- The remainder after the lowest bits of a number. -/
def feedBits : ℕ → ℕ → BitVec width → BitVec width
  | 0, _, crc => crc
  | count + 1, value, crc => feedBits count (value / 2) (shift poly (crc ^^^ BitVec.ofNat width (value % 2)))

/-- The remainder after a text. -/
def feed (crc : BitVec width) (bytes : List UInt8) : BitVec width :=
  bytes.foldl (fun crc byte => feedBits poly 8 byte.toNat crc) crc

section Linear

variable {poly} (one two : BitVec width)

theorem xor_swap (three : BitVec width) : one ^^^ three ^^^ two = one ^^^ two ^^^ three := by
  rw [BitVec.xor_assoc, BitVec.xor_comm three, ← BitVec.xor_assoc]

theorem shift_xor : shift poly (one ^^^ two) = shift poly one ^^^ shift poly two := by
  unfold shift
  simp only [BitVec.getLsbD_xor, BitVec.ushiftRight_xor_distrib]
  cases one.getLsbD 0 <;> cases two.getLsbD 0
  · rfl
  · simp only [Bool.false_xor, Bool.false_eq_true, ite_true, ite_false, BitVec.xor_assoc]
  · simp only [Bool.xor_false, Bool.false_eq_true, ite_true, ite_false]
    exact (xor_swap _ _ _).symm
  · simp only [Bool.xor_self, Bool.false_eq_true, ite_true, ite_false]
    rw [BitVec.xor_comm (two >>> 1) poly, ← BitVec.xor_assoc, BitVec.xor_assoc (one >>> 1) poly, BitVec.xor_self, BitVec.xor_zero]

theorem shifts_xor (count : ℕ) : shifts poly count (one ^^^ two) = shifts poly count one ^^^ shifts poly count two := by
  induction count generalizing one two with
  | zero => rfl
  | succ count ih =>
    unfold shifts
    rw [shift_xor, ih]

theorem shift_zero : shift poly (BitVec.ofNat width 0) = (BitVec.ofNat width 0) := by
  unfold shift
  simp only [BitVec.getLsbD_zero, Bool.false_eq_true, ite_false, BitVec.zero_ushiftRight]

theorem shifts_zero (count : ℕ) : shifts poly count (BitVec.ofNat width 0) = (BitVec.ofNat width 0) := by
  induction count with
  | zero => rfl
  | succ count ih =>
    unfold shifts
    rw [shift_zero, ih]

theorem shifts_add (first second : ℕ) (crc : BitVec width) :
    shifts poly (first + second) crc = shifts poly second (shifts poly first crc) := by
  induction first generalizing crc with
  | zero => rw [Nat.zero_add, shifts]
  | succ first ih =>
    rw [Nat.succ_add, shifts, shifts]
    exact ih _

/-- While the lowest bits are clear the remainder only moves down. -/
theorem shifts_clear {count : ℕ} {crc : BitVec width} (clear : ∀ index < count, crc.getLsbD index = false) :
    shifts poly count crc = crc >>> count := by
  induction count generalizing crc with
  | zero => rw [shifts, BitVec.ushiftRight_zero]
  | succ count ih =>
    have moved : shift poly crc = crc >>> 1 := by
      unfold shift
      rw [clear 0 (Nat.succ_pos count), if_neg Bool.false_ne_true]
    rw [shifts, moved, ih, ← BitVec.shiftRight_add, Nat.add_comm]
    intro index inside
    rw [BitVec.getLsbD_ushiftRight]
    exact clear (1 + index) (by omega)

/-- The low bits and the rest. -/
theorem split_low (low : ℕ) (crc : BitVec width) :
    crc = (crc.setWidth low).setWidth width ^^^ (crc >>> low) <<< low := by
  apply BitVec.eq_of_getLsbD_eq
  intro index inside
  simp only [BitVec.getLsbD_xor, BitVec.getLsbD_setWidth, BitVec.getLsbD_shiftLeft, BitVec.getLsbD_ushiftRight]
  by_cases below : index < low
  · simp [below, inside]
  · have back : low + (index - low) = index := by omega
    simp [below, inside, back]

/-- What was moved up comes back. -/
theorem shifts_up {low : ℕ} {crc : BitVec width} (fits : (crc <<< low) >>> low = crc) : shifts poly low (crc <<< low) = crc := by
  rw [shifts_clear, fits]
  intro index inside
  simp [BitVec.getLsbD_shiftLeft, inside]

/-- The low bits go through all shifts, the others come to their place first. -/
theorem shifts_split (low count : ℕ) (crc : BitVec width) :
    shifts poly (low + count) crc =
      shifts poly (low + count) ((crc.setWidth low).setWidth width) ^^^ shifts poly count (crc >>> low) := by
  have fits : ((crc >>> low) <<< low) >>> low = crc >>> low := by
    apply BitVec.eq_of_getLsbD_eq
    intro index inside
    simp only [BitVec.getLsbD_ushiftRight, BitVec.getLsbD_shiftLeft]
    by_cases small : low + index < width
    · simp [small]
    · simp [small, BitVec.getLsbD_of_ge crc (low + index) (by omega)]
  conv_lhs => rw [split_low low crc]
  rw [shifts_xor, shifts_add low count ((crc >>> low) <<< low), shifts_up fits]

end Linear

section Feed

variable {poly} {count value : ℕ} {crc : BitVec width}

/-- Bits may be fed one by one, or as a number whose remainder is shifted at once. -/
theorem feedBits_eq (small : value < 2 ^ count) (fits : count ≤ width) :
    feedBits poly count value crc = shifts poly count (crc ^^^ BitVec.ofNat width value) := by
  induction count generalizing value crc with
  | zero =>
    have zero : value = 0 := by omega
    subst zero
    unfold feedBits shifts
    exact BitVec.xor_zero.symm
  | succ count ih =>
    have half : value / 2 < 2 ^ count := by omega
    have small' : value < 2 ^ width := lt_of_lt_of_le small (Nat.pow_le_pow_right (by omega) fits)
    have parts : BitVec.ofNat width value = BitVec.ofNat width (value % 2) ^^^ BitVec.ofNat width (value / 2) <<< 1 := by
      apply BitVec.eq_of_getLsbD_eq
      intro index inside
      simp only [BitVec.getLsbD_xor, BitVec.getLsbD_ofNat, BitVec.getLsbD_shiftLeft, inside, decide_true, Bool.true_and]
      cases index with
      | zero => simp [Nat.testBit_zero]
      | succ index =>
        simp [Nat.testBit_succ]
        omega
    have fits : (BitVec.ofNat width (value / 2) <<< 1) >>> 1 = BitVec.ofNat width (value / 2) := by
      apply BitVec.eq_of_toNat_eq
      have bound : value / 2 < 2 ^ width := by omega
      have moved : value / 2 * 2 < 2 ^ width := by omega
      simp only [BitVec.toNat_ushiftRight, BitVec.toNat_shiftLeft, BitVec.toNat_ofNat, Nat.shiftLeft_eq, Nat.shiftRight_eq_div_pow, pow_one,
        Nat.mod_eq_of_lt bound, Nat.mod_eq_of_lt moved]
      omega
    have moved : shift poly (BitVec.ofNat width (value / 2) <<< 1) = BitVec.ofNat width (value / 2) := @shifts_up _ poly 1 _ fits
    rw [feedBits, ih half (by omega), shifts, parts, ← BitVec.xor_assoc, shift_xor _ (BitVec.ofNat width (value / 2) <<< 1), moved]

theorem feedBits_add (first second value : ℕ) (crc : BitVec width) :
    feedBits poly (first + second) value crc = feedBits poly second (value / 2 ^ first) (feedBits poly first value crc) := by
  induction first generalizing value crc with
  | zero => rw [Nat.zero_add, pow_zero, Nat.div_one, feedBits]
  | succ first ih =>
    rw [Nat.succ_add, feedBits, feedBits, ih, Nat.div_div_eq_div_mul, pow_succ']

/-- Only the lowest bits of a number are fed. -/
theorem feedBits_mod (count value : ℕ) (crc : BitVec width) :
    feedBits poly count (value % 2 ^ count) crc = feedBits poly count value crc := by
  induction count generalizing value crc with
  | zero => rfl
  | succ count ih =>
    have bit : value % 2 ^ (count + 1) % 2 = value % 2 := Nat.mod_mod_of_dvd _ (Dvd.intro_left _ rfl)
    have half : value % 2 ^ (count + 1) / 2 = value / 2 % 2 ^ count := by
      rw [pow_succ', Nat.mod_mul_right_div_self]
    rw [feedBits, feedBits, bit, half, ih]

@[simp] theorem feed_nil : feed poly crc [] = crc := rfl

theorem feed_cons (byte : UInt8) (bytes : List UInt8) :
    feed poly crc (byte :: bytes) = feed poly (feedBits poly 8 byte.toNat crc) bytes := rfl

/-- A text may be fed in parts. -/
theorem feed_append (first second : List UInt8) : feed poly crc (first ++ second) = feed poly (feed poly crc first) second :=
  List.foldl_append

/-- Bytes may be fed as the number that they stand for. -/
theorem feed_number (bytes : List UInt8) : feed poly crc bytes = feedBits poly (8 * bytes.length) (leNumber bytes) crc := by
  induction bytes generalizing crc with
  | nil => rfl
  | cons byte rest ih =>
    have small := byte.toNat_lt
    have low : leNumber (byte :: rest) % 2 ^ 8 = byte.toNat := by
      rw [leNumber]
      omega
    have high : leNumber (byte :: rest) / 2 ^ 8 = leNumber rest := by
      rw [leNumber]
      omega
    have head : feedBits poly 8 (leNumber (byte :: rest)) crc = feedBits poly 8 byte.toNat crc := by
      rw [← feedBits_mod, low]
    rw [feed_cons, ih, List.length_cons, show 8 * (rest.length + 1) = 8 + 8 * rest.length by omega, feedBits_add, high, head]

theorem feedBits_linear (count value : ℕ) (crc : BitVec width) :
    feedBits poly count value crc = shifts poly count crc ^^^ feedBits poly count value (BitVec.ofNat width 0) := by
  induction count generalizing value crc with
  | zero => exact BitVec.xor_zero.symm
  | succ count ih =>
    have start : (BitVec.ofNat width 0) ^^^ BitVec.ofNat width (value % 2) = BitVec.ofNat width (value % 2) := BitVec.zero_xor
    rw [feedBits, feedBits, shifts, ih, start, ih (value / 2) (shift poly (BitVec.ofNat width (value % 2))), shift_xor, shifts_xor,
      BitVec.xor_assoc]

/-- The remainder at the start is only shifted. -/
theorem feed_linear (bytes : List UInt8) : feed poly crc bytes = shifts poly (8 * bytes.length) crc ^^^ feed poly (BitVec.ofNat width 0) bytes := by
  rw [feed_number, feed_number, feedBits_linear]

/-- The remainders of two parts that were fed apart. -/
theorem feed_join (first second : List UInt8) :
    feed poly crc (first ++ second) = shifts poly (8 * second.length) (feed poly crc first) ^^^ feed poly (BitVec.ofNat width 0) second := by
  rw [feed_append, feed_linear]

end Feed

end Pclsync.Library.Crc
