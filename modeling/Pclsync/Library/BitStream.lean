import Mathlib

/-! Words of a fixed width as a stream of bits, highest bit first. Regrouping a
stream into words of another width loses nothing but an incomplete last word. -/

namespace Pclsync.Library

/-- The low `width` bits of a number. -/
def bits : ℕ → ℕ → List Bool
  | 0, _ => []
  | width + 1, value => value.testBit width :: bits width value

example : bits 4 6 = [false, true, true, false] := by simp [bits, Nat.testBit]

/-- The bits of all words in turn. -/
def stream (width : ℕ) (words : List ℕ) : List Bool := words.flatMap (bits width)

section
variable {width high low value : ℕ}

@[simp] theorem length_bits : (bits width value).length = width := by
  induction width with
  | zero => rfl
  | succ width ih => rw [bits, List.length_cons, ih]

theorem bits_eq_iff {other : ℕ} : bits width value = bits width other ↔
    ∀ index < width, value.testBit index = other.testBit index := by
  induction width with
  | zero => simp [bits]
  | succ width ih =>
    rw [bits, bits, List.cons.injEq, ih, Nat.forall_lt_succ_right, and_comm]

theorem bits_add : bits (high + low) value = bits high (value >>> low) ++ bits low value := by
  induction high with
  | zero => simp [bits]
  | succ high ih =>
    rw [Nat.succ_add, bits, ih, bits, List.cons_append, Nat.testBit_shiftRight, Nat.add_comm low]

/-- Appending a word below the others. -/
theorem bits_shift_or (high low value word : ℕ) (small : word < 2 ^ low) :
    bits (high + low) (value <<< low ||| word) = bits high value ++ bits low word := by
  have upper : bits high ((value <<< low ||| word) >>> low) = bits high value := by
    apply bits_eq_iff.mpr
    intro index _
    rw [Nat.testBit_shiftRight, Nat.testBit_or, Nat.testBit_shiftLeft, Nat.testBit_lt_two_pow
      (small.trans_le (Nat.pow_le_pow_right (by omega) (Nat.le_add_right low index)))]
    simp
  have lower : bits low (value <<< low ||| word) = bits low word := by
    apply bits_eq_iff.mpr
    intro index below
    rw [Nat.testBit_or, Nat.testBit_shiftLeft]
    simp [Nat.not_le.mpr below]
  rw [bits_add, upper, lower]

theorem bits_mod {bound : ℕ} (inside : width ≤ bound) : bits width (value % 2 ^ bound) = bits width value := by
  apply bits_eq_iff.mpr
  intro index below
  rw [Nat.testBit_mod_two_pow]
  simp [below.trans_le inside]

theorem bits_injective {other : ℕ} (small : value < 2 ^ width) (otherSmall : other < 2 ^ width)
    (same : bits width value = bits width other) : value = other := by
  apply Nat.eq_of_testBit_eq
  intro index
  rcases Nat.lt_or_ge index width with below | above
  · exact bits_eq_iff.mp same index below
  · have bound : ∀ {number}, number < 2 ^ width → number.testBit index = false := fun fits =>
      Nat.testBit_lt_two_pow (fits.trans_le (Nat.pow_le_pow_right (by omega) above))
    rw [bound small, bound otherSmall]

end

section
variable {width : ℕ} {words others : List ℕ}

@[simp] theorem stream_nil : stream width [] = [] := rfl

@[simp] theorem stream_cons (word : ℕ) : stream width (word :: words) = bits width word ++ stream width words :=
  List.flatMap_cons

@[simp] theorem stream_append : stream width (words ++ others) = stream width words ++ stream width others :=
  List.flatMap_append

@[simp] theorem length_stream : (stream width words).length = width * words.length := by
  induction words with
  | nil => rfl
  | cons word words ih => rw [stream_cons, List.length_append, length_bits, ih, List.length_cons, Nat.mul_succ, Nat.add_comm]

/-- Less than one word of rest does not blur where the words are. -/
theorem stream_injective {rest more : List Bool} (small : ∀ word ∈ words, word < 2 ^ width)
    (otherSmall : ∀ word ∈ others, word < 2 ^ width) (short : rest.length < width) (moreShort : more.length < width)
    (same : stream width words ++ rest = stream width others ++ more) : words = others := by
  induction words generalizing others with
  | nil =>
    cases others with
    | nil => rfl
    | cons word others =>
      have lengths := congrArg List.length same
      simp only [stream_nil, stream_cons, List.nil_append, List.length_append, length_bits] at lengths
      omega
  | cons word words ih =>
    cases others with
    | nil =>
      have lengths := congrArg List.length same
      simp only [stream_nil, stream_cons, List.nil_append, List.length_append, length_bits] at lengths
      omega
    | cons other others =>
      rw [stream_cons, stream_cons, List.append_assoc, List.append_assoc] at same
      obtain ⟨first, tail⟩ := List.append_inj same (by rw [length_bits, length_bits])
      have head := bits_injective (small word (by simp)) (otherSmall other (by simp)) first
      rw [head, ih (fun one inside => small one (by simp [inside])) (fun one inside => otherSmall one (by simp [inside]))
        tail]

end
end Pclsync.Library
