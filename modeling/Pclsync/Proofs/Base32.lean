import Pclsync.Crypto.Filename
import Pclsync.Library.BitStream

/-! Base32 as regrouping of a bit stream. Both loops keep the bits that were
read and not yet written in the low end of `buff`; how much room the block
needs is linear in what is left to read. -/

namespace Pclsync.Proofs.Base32
open Pclsync.Crypto Library

/-- The character for five bits. -/
def symbol (value : ℕ) : UInt8 := base32Table.getD value 0

/-- The stream of a byte string. -/
def byteStream (bytes : Bytes) : List Bool := stream 8 (bytes.map UInt8.toNat)

theorem byteStream_cons (byte : UInt8) (bytes : Bytes) :
    byteStream (byte :: bytes) = bits 8 byte.toNat ++ byteStream bytes := by
  rw [byteStream, List.map_cons, stream_cons, byteStream]

theorem symbol_value : ∀ value < 32, base32Value (symbol value) = some (UInt8.ofNat value) := by decide +kernel

theorem symbol_mem : ∀ value < 32, symbol value ∈ base32Table := by decide +kernel

theorem value_small (ch : UInt8) : ∀ value ∈ base32Value ch, value.toNat < 2 ^ 5 := by
  intro value decoded
  rw [base32Value] at decoded
  split at decoded
  · next letter =>
    cases decoded
    have low : (ch &&& 0x1f).toNat = ch.toNat % 2 ^ 5 := by
      rw [UInt8.toNat_and]
      exact Nat.and_two_pow_sub_one_eq_mod _ 5
    have first : 65 ≤ ch.toNat := UInt8.le_iff_toNat_le.mp letter.1
    have last : ch.toNat ≤ 90 := UInt8.le_iff_toNat_le.mp letter.2
    rw [UInt8.toNat_sub, low, UInt8.toNat_one]
    omega
  · split at decoded
    · next digit =>
      cases decoded
      have first : 50 ≤ ch.toNat := UInt8.le_iff_toNat_le.mp digit.1
      have last : ch.toNat ≤ 55 := UInt8.le_iff_toNat_le.mp digit.2
      rw [UInt8.toNat_sub, show (50 - 26 : UInt8).toNat = 24 by decide]
      omega
    · cases decoded

theorem base32Char_eq {buff : UInt32} {count : ℕ} (small : count < 32) :
    base32Char buff count = symbol ((buff.toNat >>> count) % 2 ^ 5) := by
  have shift : (UInt32.ofNat count).toNat = count := UInt32.toNat_ofNat_of_lt (small.trans (by decide))
  have index : ((0x1f : UInt32) &&& (buff >>> UInt32.ofNat count)).toNat = (buff.toNat >>> count) % 2 ^ 5 := by
    rw [UInt32.toNat_and, UInt32.toNat_shiftRight, shift, Nat.mod_eq_of_lt small, Nat.and_comm]
    exact Nat.and_two_pow_sub_one_eq_mod _ 5
  rw [base32Char, index, symbol]

/-- Taking the five highest of the pending bits. -/
theorem bits_take_five (value count : ℕ) :
    bits (5 + count) value = bits 5 (value >>> count % 2 ^ 5) ++ bits count value := by
  rw [bits_add, bits_mod le_rfl]

theorem bits_append_byte {buff : UInt32} {byte : UInt8} {count : ℕ} (small : count ≤ 24) :
    bits (count + 8) ((buff <<< 8) ||| byte.toUInt32).toNat = bits count buff.toNat ++ bits 8 byte.toNat := by
  have low : byte.toNat < 2 ^ 8 := byte.toNat_lt
  have wrap : ((buff <<< 8) ||| byte.toUInt32).toNat = (buff.toNat <<< 8 ||| byte.toNat) % 2 ^ 32 := by
    rw [UInt32.toNat_or, UInt32.toNat_shiftLeft, UInt8.toNat_toUInt32, Nat.or_mod_two_pow,
      Nat.mod_eq_of_lt (show byte.toNat < 2 ^ 32 by omega)]
    rfl
  rw [wrap, bits_mod (by omega), bits_shift_or _ _ _ _ low]

theorem bits_append_five {buff : UInt32} {ch : UInt8} {count : ℕ} (small : count ≤ 27) (low : ch.toNat < 2 ^ 5) :
    bits (count + 5) ((buff <<< 5) + ch.toUInt32).toNat = bits count buff.toNat ++ bits 5 ch.toNat := by
  have wrap : ((buff <<< 5) + ch.toUInt32).toNat = (buff.toNat <<< 5 ||| ch.toNat) % 2 ^ 32 := by
    rw [UInt32.toNat_add, UInt32.toNat_shiftLeft, UInt8.toNat_toUInt32, ← Nat.shiftLeft_add_eq_or_of_lt low,
      Nat.mod_add_mod]
    rfl
  rw [wrap, bits_mod (by omega), bits_shift_or _ _ _ _ low]

section Encoder
variable {size : ℕ} {str : Bytes}

theorem take_drop_cons {offset length : ℕ} (inside : offset + (length + 1) ≤ str.length) :
    (str.drop offset).take (length + 1) = str[offset] :: (str.drop (offset + 1)).take length := by
  rw [List.drop_eq_getElem_cons (by omega), List.take_succ_cons]

theorem base32EncodeLoop_spec (str : Bytes) (offset length count : ℕ) (buff : UInt32) (p : Buffer size)
    (inside : offset + length ≤ str.length) (few : count < 8)
    (room : 8 * length + count + 5 * p.bytes.length ≤ 5 * size) :
    ∃ left rest after values, base32EncodeLoop str offset length count buff p = .ok (left, rest, after) ∧
      left < 8 ∧ after.bytes = p.bytes ++ values.map symbol ∧ (∀ value ∈ values, value < 2 ^ 5) ∧
      stream 5 values ++ bits left rest.toNat =
        bits count buff.toNat ++ byteStream ((str.drop offset).take length) := by
  induction total : 8 * length + count using Nat.strong_induction_on
    generalizing offset length count buff p with
  | _ total ih =>
    rw [base32EncodeLoop]
    cases length with
    | zero => exact ⟨count, buff, p, [], by rw [if_pos rfl], few, by simp, by simp, by simp [byteStream]⟩
    | succ length =>
      rw [if_neg (Nat.succ_ne_zero length)]
      by_cases empty : count < 5
      · let filled := (buff <<< 8) ||| str[offset].toUInt32
        obtain ⟨next, put, written⟩ := Buffer.put_ok p [base32Char filled (count + 8 - 5)] (by
          rw [List.length_singleton]
          omega)
        obtain ⟨left, rest, after, values, run, leftFew, bytes, small, same⟩ := ih _ (by omega)
          (offset + 1) length (count + 8 - 5) filled next (by omega) (by omega) (by
            rw [written, List.length_append, List.length_singleton]
            omega) rfl
        refine ⟨left, rest, after, (filled.toNat >>> (count + 8 - 5)) % 2 ^ 5 :: values, ?_, leftFew, ?_, ?_, ?_⟩
        · rw [if_pos empty, readByte_ok (by omega)]
          simp only [ok_bind]
          rw [put]
          exact run
        · rw [bytes, written, base32Char_eq (by omega), List.append_assoc, List.singleton_append, List.map_cons]
        · exact List.forall_mem_cons.mpr ⟨Nat.mod_lt _ (by omega), small⟩
        · rw [take_drop_cons inside, byteStream_cons, ← List.append_assoc (bits count _), ← bits_append_byte (by omega),
            stream_cons, List.append_assoc, same, ← List.append_assoc, ← bits_take_five,
            show 5 + (count + 8 - 5) = count + 8 by omega]
      · obtain ⟨next, put, written⟩ := Buffer.put_ok p [base32Char buff (count - 5)] (by
          rw [List.length_singleton]
          omega)
        obtain ⟨left, rest, after, values, run, leftFew, bytes, small, same⟩ := ih _ (by omega)
          offset (length + 1) (count - 5) buff next (by omega) (by omega) (by
            rw [written, List.length_append, List.length_singleton]
            omega) rfl
        refine ⟨left, rest, after, (buff.toNat >>> (count - 5)) % 2 ^ 5 :: values, ?_, leftFew, ?_, ?_, ?_⟩
        · rw [if_neg empty]
          simp only [put, ok_bind]
          exact run
        · rw [bytes, written, base32Char_eq (by omega), List.append_assoc, List.singleton_append, List.map_cons]
        · exact List.forall_mem_cons.mpr ⟨Nat.mod_lt _ (by omega), small⟩
        · rw [stream_cons, List.append_assoc, same, ← List.append_assoc, ← bits_take_five,
            show 5 + (count - 5) = count by omega]

/-- What is left over is written with zero bits below it. -/
theorem base32EncodeRest_spec (count : ℕ) (buff : UInt32) (p : Buffer size) (few : count < 8)
    (room : count + 5 * p.bytes.length ≤ 5 * size) :
    ∃ after values zeros, base32EncodeRest count buff p = .ok after ∧
      after.bytes = p.bytes ++ values.map symbol ∧ (∀ value ∈ values, value < 2 ^ 5) ∧
      stream 5 values = bits count buff.toNat ++ zeros ∧ zeros.length < 5 := by
  induction count using Nat.strong_induction_on generalizing buff p with
  | _ count ih =>
    rw [base32EncodeRest]
    by_cases done : count = 0
    · subst done
      exact ⟨p, [], [], by rw [if_pos rfl], by simp, by simp, by simp [bits], by simp⟩
    rw [if_neg done]
    by_cases last : count < 5
    · let shifted := buff <<< UInt32.ofNat (5 - count)
      have amount : (UInt32.ofNat (5 - count)).toNat = 5 - count :=
        UInt32.toNat_ofNat_of_lt (lt_of_le_of_lt (Nat.sub_le 5 count) (by decide))
      have value : bits 5 (shifted.toNat >>> 0 % 2 ^ 5) = bits count buff.toNat ++ bits (5 - count) 0 := by
        have wrap : shifted.toNat = (buff.toNat <<< (5 - count) ||| 0) % 2 ^ 32 := by
          rw [UInt32.toNat_shiftLeft, amount, Nat.mod_eq_of_lt (show 5 - count < 32 by omega), Nat.or_zero]
        rw [bits_mod le_rfl, Nat.shiftRight_zero, wrap, bits_mod (by omega)]
        have parts := bits_shift_or count (5 - count) buff.toNat 0 (Nat.two_pow_pos _)
        rwa [show count + (5 - count) = 5 by omega] at parts
      obtain ⟨next, put, written⟩ := Buffer.put_ok p [base32Char shifted 0] (by
        rw [List.length_singleton]
        omega)
      refine ⟨next, [shifted.toNat >>> 0 % 2 ^ 5], bits (5 - count) 0, ?_, ?_, ?_, ?_, ?_⟩
      · rw [if_pos last]
        simp only [shifted, put, ok_bind]
        rw [base32EncodeRest, if_pos rfl]
      · rw [written, base32Char_eq (by omega), List.map_singleton]
      · simpa using Nat.mod_lt _ (by omega)
      · rw [stream_cons, value, stream_nil, List.append_nil]
      · rw [length_bits]
        omega
    · obtain ⟨next, put, written⟩ := Buffer.put_ok p [base32Char buff (count - 5)] (by
        rw [List.length_singleton]
        omega)
      obtain ⟨after, values, zeros, run, bytes, small, same, short⟩ := ih (count - 5) (by omega) buff next
        (by omega) (by
          rw [written, List.length_append, List.length_singleton]
          omega)
      refine ⟨after, (buff.toNat >>> (count - 5)) % 2 ^ 5 :: values, zeros, ?_, ?_, ?_, ?_, short⟩
      · rw [if_neg last]
        simp only [put, ok_bind]
        exact run
      · rw [bytes, written, base32Char_eq (by omega), List.append_assoc, List.singleton_append, List.map_cons]
      · exact List.forall_mem_cons.mpr ⟨Nat.mod_lt _ (by omega), small⟩
      · rw [stream_cons, same, ← List.append_assoc, ← bits_take_five, show 5 + (count - 5) = count by omega]

theorem base32Encode_spec (str : Bytes) (length : ℕ) (inside : length ≤ str.length) :
    ∃ values zeros, base32Encode str length = .ok (values.map symbol ++ [0], values.length) ∧
      (∀ value ∈ values, value < 2 ^ 5) ∧ stream 5 values = byteStream (str.take length) ++ zeros ∧
      zeros.length < 5 := by
  obtain ⟨left, rest, middle, first, run, few, bytes, small, same⟩ :=
    base32EncodeLoop_spec str 0 length 0 0 (Buffer.malloc ((length + 4) / 5 * 8 + 1)) (by omega) (by omega) (by
        rw [Buffer.bytes_malloc, List.length_nil]
        omega)
  have sameLength := congrArg List.length same
  simp only [List.drop_zero, byteStream, List.length_append, length_stream, length_bits, List.length_map,
    List.length_take, Nat.min_eq_left inside] at sameLength
  have middleLength : middle.bytes.length = first.length := by
    rw [bytes, Buffer.bytes_malloc, List.nil_append, List.length_map]
  obtain ⟨after, second, zeros, finish, moreBytes, moreSmall, ending, short⟩ :=
    base32EncodeRest_spec left rest middle few (by omega)
  have endLength := congrArg List.length ending
  simp only [List.length_append, length_stream, length_bits] at endLength
  have afterBytes : after.bytes = (first ++ second).map symbol := by
    rw [moreBytes, bytes, Buffer.bytes_malloc, List.nil_append, List.map_append]
  have afterLength : after.bytes.length = first.length + second.length := by
    rw [afterBytes, List.length_map, List.length_append]
  obtain ⟨closed, put, terminated⟩ := Buffer.put_ok after [0] (by
    rw [List.length_singleton]
    omega)
  refine ⟨first ++ second, zeros, ?_, ?_, ?_, short⟩
  · simp only [base32Encode, run, ok_bind, finish, put, terminated, afterBytes, List.length_map]
    rfl
  · intro value member
    rcases List.mem_append.mp member with early | late
    · exact small value early
    · exact moreSmall value late
  · rw [stream_append, ending, ← List.append_assoc, same]
    simp [bits]

end Encoder

section Decoder
variable {size : ℕ} {str : Bytes}

/-- On any input the loop stays inside both blocks, and it stops early exactly
at a character that is not in the alphabet. -/
theorem base32DecodeLoop_spec (str : Bytes) (offset length count : ℕ) (buff : UInt32) (p : Buffer size)
    (inside : offset + length ≤ str.length) (few : count < 8)
    (room : 5 * length + count + 8 * p.bytes.length ≤ 8 * size) :
    (((str.drop offset).take length).mapM base32Value = none ∧
      base32DecodeLoop str length offset count buff p = .ok none) ∨
    ∃ values after out rest, ((str.drop offset).take length).mapM base32Value = some values ∧
      values.length = length ∧ base32DecodeLoop str length offset count buff p = .ok (some after) ∧ after.bytes = p.bytes ++ out ∧
      byteStream out ++ rest = bits count buff.toNat ++ stream 5 (values.map UInt8.toNat) ∧ rest.length < 8 := by
  induction length generalizing offset count buff p with
  | zero =>
    right
    exact ⟨[], p, [], bits count buff.toNat, by simp, rfl, rfl, by simp, by simp [byteStream], by simpa using few⟩
  | succ length ih =>
    rw [take_drop_cons inside, List.mapM_cons]
    cases decoded : base32Value str[offset] with
    | none =>
      left
      refine ⟨rfl, ?_⟩
      rw [base32DecodeLoop, readByte_ok (by omega)]
      simp only [ok_bind, decoded]
      rfl
    | some value =>
      have low := value_small _ value decoded
      let filled := (buff <<< 5) + value.toUInt32
      by_cases full : count + 5 ≥ 8
      · let byte := (filled >>> UInt32.ofNat (count + 5 - 8)).toUInt8
        have amount : (UInt32.ofNat (count + 5 - 8)).toNat = count + 5 - 8 :=
          UInt32.toNat_ofNat_of_lt (lt_of_lt_of_le (show count + 5 - 8 < 8 by omega) (by decide))
        have value8 : byte.toNat = filled.toNat >>> (count + 5 - 8) % 2 ^ 8 := by
          rw [UInt32.toNat_toUInt8, UInt32.toNat_shiftRight, amount,
            Nat.mod_eq_of_lt (show count + 5 - 8 < 32 by omega)]
        obtain ⟨next, put, written⟩ := Buffer.put_ok p [byte] (by
          rw [List.length_singleton]
          omega)
        have step : base32DecodeLoop str (length + 1) offset count buff p =
            base32DecodeLoop str length (offset + 1) (count + 5 - 8) filled next := by
          rw [base32DecodeLoop, readByte_ok (by omega)]
          simp only [ok_bind, decoded, if_pos full]
          rw [put]
          rfl
        rw [step]
        rcases ih (offset + 1) (count + 5 - 8) filled next (by omega) (by omega) (by
          rw [written, List.length_append, List.length_singleton]
          omega) with ⟨bad, run⟩ | ⟨values, after, out, rest, good, symbols, run, bytes, same, short⟩
        · left
          exact ⟨by simp [bad], run⟩
        · right
          refine ⟨value :: values, after, byte :: out, rest, by simp [good], by simp [symbols], run, ?_, ?_, short⟩
          · rw [bytes, written, List.append_assoc, List.singleton_append]
          · rw [byteStream_cons, value8, bits_mod le_rfl, List.append_assoc, same, ← List.append_assoc, ← bits_add,
              show 8 + (count + 5 - 8) = count + 5 by omega, bits_append_five (by omega) low, List.append_assoc,
              List.map_cons, stream_cons]
      · have step : base32DecodeLoop str (length + 1) offset count buff p =
            base32DecodeLoop str length (offset + 1) (count + 5) filled p := by
          rw [base32DecodeLoop, readByte_ok (by omega)]
          simp only [ok_bind, decoded, if_neg full]
          rfl
        rw [step]
        rcases ih (offset + 1) (count + 5) filled p (by omega) (by omega)
          (by omega) with ⟨bad, run⟩ | ⟨values, after, out, rest, good, symbols, run, bytes, same, short⟩
        · left
          exact ⟨by simp [bad], run⟩
        · right
          refine ⟨value :: values, after, out, rest, by simp [good], by simp [symbols], run, bytes, ?_, short⟩
          rw [same, bits_append_five (by omega) low, List.append_assoc, List.map_cons, stream_cons]

theorem base32Decode_spec (str : Bytes) (length : ℕ) (inside : length ≤ str.length) :
    ((str.take length).mapM base32Value = none ∧ base32Decode str length = .ok none) ∨
    ∃ values out rest, (str.take length).mapM base32Value = some values ∧
      base32Decode str length = .ok (some (out ++ [0], out.length)) ∧
      byteStream out ++ rest = stream 5 (values.map UInt8.toNat) ∧ rest.length < 8 := by
  have enough : 5 * length ≤ 8 * ((length + 7) / 8 * 5) := by omega
  rcases base32DecodeLoop_spec str 0 length 0 0 (Buffer.malloc ((length + 7) / 8 * 5 + 1)) (by omega) (by omega) (by
      rw [Buffer.bytes_malloc, List.length_nil]
      omega) with ⟨bad, run⟩ | ⟨values, after, out, rest, good, symbols, run, bytes, same, short⟩
  · left
    refine ⟨bad, ?_⟩
    simp only [base32Decode, run, ok_bind]
    rfl
  · right
    rw [Buffer.bytes_malloc, List.nil_append] at bytes
    have lengths := congrArg List.length same
    simp only [byteStream, List.length_append, length_stream, List.length_map, length_bits, symbols] at lengths
    obtain ⟨closed, put, terminated⟩ := Buffer.put_ok after [0] (by
      rw [List.length_singleton, bytes]
      omega)
    refine ⟨values, out, rest, good, ?_, same, short⟩
    simp only [base32Decode, run, ok_bind, put, terminated, bytes]
    rfl

end Decoder

/-- Decoding what was encoded, out of the terminated block. -/
theorem base32_round_trip {str : Bytes} {values : List ℕ} {zeros : List Bool} (small : ∀ value ∈ values, value < 2 ^ 5)
    (same : stream 5 values = byteStream str ++ zeros) (short : zeros.length < 5) :
    base32Decode (values.map symbol ++ [0]) values.length = .ok (some (str ++ [0], str.length)) := by
  have chars : (values.map symbol ++ [0]).take values.length = values.map symbol :=
    List.take_left' (List.length_map _)
  have back : (values.map symbol).mapM base32Value = some (values.map UInt8.ofNat) := by
    clear same chars
    induction values with
    | nil => rfl
    | cons value values ih =>
      obtain ⟨first, others⟩ := List.forall_mem_cons.mp small
      simp [symbol_value value first, ih others]
  have numbers : (values.map UInt8.ofNat).map UInt8.toNat = values := by
    have each : ∀ value ∈ values, (UInt8.toNat ∘ UInt8.ofNat) value = value := fun value member =>
      UInt8.toNat_ofNat_of_lt ((small value member).trans (by decide))
    rw [List.map_map, List.map_congr_left each, List.map_id']
  rcases base32Decode_spec (values.map symbol ++ [0]) values.length (by simp) with
    ⟨bad, _⟩ | ⟨decoded, out, rest, good, run, stream, restShort⟩
  · rw [chars, back] at bad
    cases bad
  · rw [chars, back] at good
    cases good
    rw [numbers, same] at stream
    have byte : ∀ bytes : Bytes, ∀ value ∈ bytes.map UInt8.toNat, value < 2 ^ 8 := by
      intro bytes value member
      obtain ⟨source, -, rfl⟩ := List.mem_map.mp member
      exact source.toNat_lt
    have bytes := stream_injective (byte out) (byte str) restShort (short.trans (by omega)) stream
    have found : out = str := List.map_injective_iff.mpr (fun _ _ => UInt8.toNat_inj.mp) bytes
    rw [run, found]

end Pclsync.Proofs.Base32
